import Lz4rip.Framework.Run

/-!
# Slices

Slices are lists. `seg l i n` are the `n` elements of `l` at `i`, `store l i d`
is `l` with `d` written at `i`. `Run.chunk` and `Run.storeAt` are the checked
forms, which panic where the slice of the code would be out of range; the end
`i + n` of a range is computed exactly, since a sum that wraps is out of range
as well.
-/

namespace Lz4rip

variable {α : Type}

/-- The `n` elements of `l` at `i`. -/
def seg (l : List α) (i n : Nat) : List α := (l.drop i).take n

theorem length_seg {l : List α} {i n : Nat} (h : i + n ≤ l.length) : (seg l i n).length = n := by
  rw [seg, List.length_take, List.length_drop]
  omega

@[simp] theorem seg_zero (l : List α) (i : Nat) : seg l i 0 = [] := by simp [seg]

theorem seg_zero_left (l : List α) (n : Nat) : seg l 0 n = l.take n := by
  rw [seg, List.drop_zero]

theorem getElem?_seg (l : List α) (i n j : Nat) :
    (seg l i n)[j]? = if j < n then l[i + j]? else none := by
  rw [seg, List.getElem?_take, List.getElem?_drop]

theorem getElem?_seg_of_lt (l : List α) {i n j : Nat} (h : j < n) :
    (seg l i n)[j]? = l[i + j]? := by
  rw [getElem?_seg, if_pos h]

theorem seg_append_seg (l : List α) (i a b : Nat) :
    seg l i a ++ seg l (i + a) b = seg l i (a + b) := by
  rw [seg, seg, seg, ← List.drop_drop, List.take_add]

theorem take_append_seg (l : List α) (i n : Nat) : l.take i ++ seg l i n = l.take (i + n) := by
  rw [seg, ← List.take_add]

theorem seg_eq_drop {l : List α} {i n : Nat} (h : l.length ≤ i + n) : seg l i n = l.drop i :=
  List.take_of_length_le (by rw [List.length_drop]; omega)

theorem seg_take (l : List α) {i n m : Nat} (h : i + n ≤ m) : seg (l.take m) i n = seg l i n := by
  refine List.ext_getElem? fun j => ?_
  rw [getElem?_seg, getElem?_seg]
  split
  · rw [List.getElem?_take_of_lt (by omega)]
  · rfl

theorem seg_append_left {a : List α} (b : List α) {i n : Nat} (h : i + n ≤ a.length) :
    seg (a ++ b) i n = seg a i n := by
  rw [← seg_take (a ++ b) h, List.take_left]

theorem seg_append_right (a b : List α) (i n : Nat) :
    seg (a ++ b) (a.length + i) n = seg b i n := by
  rw [seg, seg, List.drop_length_add_append]

theorem seg_drop (l : List α) (k i n : Nat) : seg (l.drop k) i n = seg l (k + i) n := by
  rw [seg, seg, List.drop_drop]

theorem take_seg (l : List α) {i n m : Nat} (h : m ≤ n) : (seg l i n).take m = seg l i m := by
  rw [seg, seg, List.take_take, Nat.min_eq_left h]

theorem drop_seg (l : List α) (i n k : Nat) : (seg l i n).drop k = seg l (i + k) (n - k) := by
  rw [seg, seg, List.drop_take, List.drop_drop]

theorem seg_one {l : List α} {i : Nat} (h : i < l.length) : seg l i 1 = [l[i]] := by
  rw [seg, List.drop_eq_getElem_cons h, List.take_succ_cons, List.take_zero]

theorem seg_seg (l : List α) {i n j m : Nat} (h : j + m ≤ n) :
    seg (seg l i n) j m = seg l (i + j) m := by
  have : seg l i n = (l.drop i).take n := rfl
  rw [this, seg_take _ h, seg_drop]

/-- Two lists with the same elements below `n` have the same first `n`. -/
theorem take_congr {l m : List α} {n : Nat} (h : ∀ i < n, l[i]? = m[i]?) :
    l.take n = m.take n := by
  refine List.ext_getElem? fun i => ?_
  rw [List.getElem?_take, List.getElem?_take]
  split
  · exact h i ‹_›
  · rfl

theorem getElem?_eq_of_take {l m : List α} {n i : Nat} (h : l.take n = m.take n) (hi : i < n) :
    l[i]? = m[i]? := by
  rw [← List.getElem?_take_of_lt hi, h, List.getElem?_take_of_lt hi]

/-- `l` with `d` written at `i`. -/
def store (l : List α) (i : Nat) (d : List α) : List α := l.take i ++ d ++ l.drop (i + d.length)

theorem length_store {l d : List α} {i : Nat} (h : i + d.length ≤ l.length) :
    (store l i d).length = l.length := by
  simp only [store, List.length_append, List.length_take, List.length_drop]
  omega

theorem take_store {l : List α} {i : Nat} (d : List α) (h : i ≤ l.length) :
    (store l i d).take (i + d.length) = l.take i ++ d := by
  rw [store]
  exact List.take_left' (by rw [List.length_append, List.length_take]; omega)

theorem getElem?_store_lt {l : List α} {i j : Nat} (d : List α) (hi : i ≤ l.length) (h : j < i) :
    (store l i d)[j]? = l[j]? := by
  rw [store, List.append_assoc, List.getElem?_append_left (by rw [List.length_take]; omega),
    List.getElem?_take_of_lt h]

theorem getElem?_store_mid {l d : List α} {i j : Nat} (hi : i ≤ l.length) (h : j < d.length) :
    (store l i d)[i + j]? = d[j]? := by
  have hl : (l.take i).length = i := by rw [List.length_take]; omega
  rw [store, List.append_assoc, List.getElem?_append_right (by omega), hl,
    Nat.add_sub_cancel_left, List.getElem?_append_left h]

theorem getElem?_store_ge {l d : List α} {i j : Nat} (hi : i ≤ l.length) (h : i + d.length ≤ j) :
    (store l i d)[j]? = l[j]? := by
  have hl : (l.take i ++ d).length = i + d.length := by
    rw [List.length_append, List.length_take]; omega
  rw [store, List.getElem?_append_right (by omega), hl, List.getElem?_drop,
    Nat.add_sub_cancel' h]

theorem take_store_of_le {l : List α} {i k : Nat} (d : List α) (hi : i ≤ l.length) (h : k ≤ i) :
    (store l i d).take k = l.take k :=
  take_congr fun _ hj => getElem?_store_lt d hi (by omega)

theorem store_nil (l : List α) (i : Nat) : store l i [] = l := by
  rw [store, List.append_nil, List.length_nil, Nat.add_zero, List.take_append_drop]

theorem length_store_max {l d : List α} {i : Nat} (h : i ≤ l.length) :
    (store l i d).length = max l.length (i + d.length) := by
  simp only [store, List.length_append, List.length_take, List.length_drop]
  omega

theorem seg_store_of_le {l d : List α} {i j m : Nat} (h : i ≤ l.length) (hj : i + d.length ≤ j) :
    seg (store l i d) j m = seg l j m := by
  refine List.ext_getElem? fun k => ?_
  rw [getElem?_seg, getElem?_seg]
  split
  · exact getElem?_store_ge h (by omega)
  · rfl

theorem store_append {l a b : List α} {i : Nat} (h : i ≤ l.length) :
    store (store l i a) (i + a.length) b = store l i (a ++ b) := by
  rw [store, take_store a h]
  refine List.append_eq_append_iff.mpr (.inl ⟨[], ?_, ?_⟩)
  · rw [List.append_nil, List.append_assoc]
  · rw [List.nil_append, List.length_append, store, List.append_assoc, ← List.drop_drop,
      show i + a.length = (l.take i ++ a).length by
        rw [List.length_append, List.length_take]; omega, ← List.append_assoc, List.drop_left,
      List.drop_drop, List.length_append, List.length_take]
    congr 1
    omega

theorem seg_store {l d : List α} {i : Nat} (h : i ≤ l.length) :
    seg (store l i d) i d.length = d := by
  have hl : (l.take i).length = i := by rw [List.length_take]; omega
  have := seg_append_right (l.take i) d 0 d.length
  rw [← take_store d h, hl, Nat.add_zero, seg_take _ (Nat.le_refl _)] at this
  rw [this, seg_zero_left, List.take_length]

theorem store_take_append {l d : List α} {i : Nat} (h : i ≤ l.length) :
    store l i (d.take (min (l.length - i) d.length)) ++ d.drop (min (l.length - i) d.length) =
      store l i d := by
  by_cases hle : d.length ≤ l.length - i
  · rw [Nat.min_eq_right hle, List.take_length, List.drop_length, List.append_nil]
  · have hmin : min (l.length - i) d.length = l.length - i := Nat.min_eq_left (by omega)
    have htake : (d.take (l.length - i)).length = l.length - i := by
      rw [List.length_take, hmin]
    have hover : l.drop (i + (d.take (l.length - i)).length) = [] :=
      List.drop_of_length_le (by rw [htake]; omega)
    have hover' : l.drop (i + d.length) = [] := List.drop_of_length_le (by omega)
    rw [hmin, store, store, hover, hover', List.append_nil, List.append_nil, List.append_assoc,
      List.take_append_drop]

namespace Run

/-- `&l[i..i + n]`. -/
def chunk (l : List α) (i n : Nat) : Run (List α) :=
  if i + n ≤ l.length then .ret (seg l i n) else .panic

@[simp] theorem WP_chunk {l : List α} {i n : Nat} {Q : List α → Prop} :
    WP (chunk l i n) Q = (i + n ≤ l.length ∧ Q (seg l i n)) := by
  unfold chunk
  split <;> simp [*]

theorem chunk_eq {l : List α} {i n : Nat} (h : i + n ≤ l.length) :
    chunk l i n = .ret (seg l i n) := if_pos h

/-- `l[i..i + d.len()].copy_from_slice(d)`. -/
def storeAt (l : List α) (i : Nat) (d : List α) : Run (List α) :=
  if i + d.length ≤ l.length then .ret (store l i d) else .panic

@[simp] theorem WP_storeAt {l d : List α} {i : Nat} {Q : List α → Prop} :
    WP (storeAt l i d) Q = (i + d.length ≤ l.length ∧ Q (store l i d)) := by
  unfold storeAt
  split <;> simp [*]

/-- `l[i]`. -/
def index (l : List α) (i : Nat) : Run α := unwrap l[i]?

theorem index_eq {l : List α} {i : Nat} (h : i < l.length) : index l i = .ret l[i] := by
  rw [index, List.getElem?_eq_getElem h, unwrap_some]

end Run

end Lz4rip
