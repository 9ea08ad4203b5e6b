import Lz4rip.Framework.Slice

/-!
# Back-references and sequences, over any alphabet

`copyBack w off n` appends `n` elements to `w`, one at a time, each the one
`off` back from the end, so that a match longer than its offset repeats.
`getElem?_copyBack` is its closed form. A buffer whose elements from `dst` on
continue with period `off` holds such a copy (`Copied`, `Copied.take_eq`);
`Copied.store` is the step of every copy loop that works in chunks: a chunk
that continues the period, stored at a position already reached, extends it,
and `Copied.seg_history` says which chunks of the buffer do.

A `Sequence` is a literal run and a match, `expand` decodes a list of them
after a history. Decoding depends on no more of the history than the offsets
reach (`expand_append_history`), and sequences that spell a text
(`Sequence.Spells`) decode to it (`Spelled.expand`).
-/

namespace Lz4rip.Lz77

variable {α : Type}

/-- Appends `n` elements to `w`, each the element `off` back. -/
def copyBack (w : List α) (off : Nat) : Nat → List α
  | 0 => w
  | n + 1 => copyBack w off n ++ ((copyBack w off n)[(copyBack w off n).length - off]?).toList

@[simp] theorem copyBack_zero (w : List α) (off : Nat) : copyBack w off 0 = w := rfl

theorem length_copyBack {w : List α} {off : Nat} (h₀ : 0 < off) (h : off ≤ w.length) :
    ∀ n, (copyBack w off n).length = w.length + n
  | 0 => rfl
  | n + 1 => by
    have ih := length_copyBack h₀ h n
    rw [copyBack, List.length_append, ih, List.getElem?_eq_getElem (by omega), Option.toList_some,
      List.length_singleton, Nat.add_assoc]

theorem take_copyBack (w : List α) (off : Nat) :
    ∀ n, (copyBack w off n).take w.length = w
  | 0 => List.take_length
  | n + 1 => by
    have ih := take_copyBack w off n
    have hl : w.length ≤ (copyBack w off n).length := by
      have := congrArg List.length ih
      rw [List.length_take] at this
      omega
    rw [copyBack, List.take_append_of_le_length hl, ih]

theorem getElem?_copyBack_lt {w : List α} {off i : Nat} (hi : i < w.length) (n : Nat) :
    (copyBack w off n)[i]? = w[i]? := by
  conv_rhs => rw [← take_copyBack w off n, List.getElem?_take_of_lt hi]

/-- The closed form of a copy: element `i` of it is element `i % off` of the
last `off` elements of `w`. -/
theorem getElem?_copyBack {w : List α} {off : Nat} (h₀ : 0 < off) (h : off ≤ w.length) :
    ∀ {n i : Nat}, i < n → (copyBack w off n)[w.length + i]? = w[w.length - off + i % off]?
  | n + 1, i, hi => by
    have hl := length_copyBack h₀ h n
    rw [copyBack]
    by_cases hn : i < n
    · rw [List.getElem?_append_left (by omega)]
      exact getElem?_copyBack h₀ h hn
    · obtain rfl : i = n := by omega
      have he : w.length + i - off < (copyBack w off i).length := by omega
      rw [List.getElem?_append_right (by omega), hl, Nat.sub_self, List.getElem?_eq_getElem he,
        Option.toList_some, List.getElem?_cons_zero, ← List.getElem?_eq_getElem he]
      by_cases hio : i < off
      · rw [Nat.mod_eq_of_lt hio, show w.length + i - off = w.length - off + i by omega]
        exact getElem?_copyBack_lt (by omega) i
      · rw [show w.length + i - off = w.length + (i - off) by omega,
          getElem?_copyBack h₀ h (show i - off < i by omega),
          Nat.mod_eq_sub_mod (a := i) (b := off) (by omega)]

/-- A list that agrees with `w` and then continues with period `off` starts
with the copy. -/
theorem take_eq_copyBack {b w : List α} {off n : Nat} (h₀ : 0 < off) (h : off ≤ w.length)
    (hw : ∀ i < w.length, b[i]? = w[i]?)
    (hn : ∀ i < n, b[w.length + i]? = w[w.length - off + i % off]?) :
    b.take (w.length + n) = copyBack w off n := by
  rw [← List.take_of_length_le (Nat.le_of_eq (length_copyBack h₀ h n))]
  refine take_congr fun i hi => ?_
  by_cases hi' : i < w.length
  · rw [hw i hi', getElem?_copyBack_lt hi']
  · obtain ⟨j, rfl⟩ := Nat.exists_eq_add_of_le (Nat.le_of_not_lt hi')
    rw [hn j (by omega), getElem?_copyBack h₀ h (by omega)]

/-- Copying looks back no further than its offset. -/
theorem copyBack_append (a : List α) {w : List α} {off : Nat} (h₀ : 0 < off) (h : off ≤ w.length) :
    ∀ n, copyBack (a ++ w) off n = a ++ copyBack w off n
  | 0 => rfl
  | n + 1 => by
    have hl := length_copyBack h₀ h n
    rw [copyBack, copyBack, copyBack_append a h₀ h n, List.append_assoc, List.length_append,
      List.getElem?_append_right (by omega),
      show a.length + (copyBack w off n).length - off - a.length = (copyBack w off n).length - off by
        omega]

theorem copyBack_add (w : List α) (off m : Nat) :
    ∀ n, copyBack w off (m + n) = copyBack (copyBack w off m) off n
  | 0 => rfl
  | n + 1 => by rw [← Nat.add_assoc, copyBack, copyBack_add w off m n, copyBack]

/-- A match no longer than its offset is a piece of the history. -/
theorem copyBack_of_le {w : List α} {off n : Nat} (h₀ : 0 < off) (h : off ≤ w.length)
    (hn : n ≤ off) : copyBack w off n = w ++ seg w (w.length - off) n := by
  have hs : (seg w (w.length - off) n).length = n := length_seg (by omega)
  have := take_eq_copyBack (b := w ++ seg w (w.length - off) n) (n := n) h₀ h
    (fun i hi => List.getElem?_append_left hi) fun i hi => by
      rw [List.getElem?_append_right (by omega), Nat.add_sub_cancel_left, getElem?_seg_of_lt _ hi,
        Nat.mod_eq_of_lt (by omega)]
  rw [← this, List.take_of_length_le (Nat.le_of_eq (by rw [List.length_append, hs]))]

/-- Copying within a text that repeats at distance `off` gives the text. -/
theorem copyBack_take {v : List α} {p off : Nat} (h₀ : 0 < off) (h : off ≤ p) :
    ∀ {n : Nat}, p + n ≤ v.length → (∀ i < n, v[p + i]? = v[p + i - off]?) →
      copyBack (v.take p) off n = v.take (p + n)
  | 0, _, _ => rfl
  | n + 1, hn, hv => by
    have hp : (v.take p).length = p := by rw [List.length_take]; omega
    have ih := copyBack_take h₀ h (n := n) (by omega) fun i hi => hv i (by omega)
    rw [copyBack, ih, List.length_take, Nat.min_eq_left (by omega),
      List.getElem?_take_of_lt (by omega), ← hv n (by omega), ← Nat.add_assoc, List.take_add_one]

/-! ## Copies in a buffer -/

/-- `b'` is `b` with the `n` elements from `dst` on continuing `b` with period
`off`; what lies past them is not said. -/
structure Copied (b b' : List α) (dst off n : Nat) : Prop where
  length : b'.length = b.length
  below : ∀ i < dst, b'[i]? = b[i]?
  rep : ∀ i < n, b'[dst + i]? = b[dst - off + i % off]?

namespace Copied

variable {b b' : List α} {dst off n : Nat}

theorem refl (b : List α) (dst off : Nat) : Copied b b dst off 0 :=
  ⟨rfl, fun _ _ => rfl, fun _ hi => absurd hi (Nat.not_lt_zero _)⟩

theorem mono {m : Nat} (h : Copied b b' dst off n) (hm : m ≤ n) : Copied b b' dst off m :=
  ⟨h.length, h.below, fun i hi => h.rep i (by omega)⟩

/-- The first bytes of the buffer after a copy. -/
theorem take_eq (h : Copied b b' dst off n) (h₀ : 0 < off) (ho : off ≤ dst) (hd : dst ≤ b.length) :
    b'.take (dst + n) = copyBack (b.take dst) off n := by
  have hl : (b.take dst).length = dst := by rw [List.length_take]; omega
  have hr := take_eq_copyBack (b := b') (w := b.take dst) (n := n) h₀ (by omega)
  rw [hl] at hr
  refine hr (fun i hi => ?_) fun i hi => ?_
  · rw [List.getElem?_take_of_lt hi, h.below i hi]
  · have := Nat.mod_lt i h₀
    rw [h.rep i hi, List.getElem?_take_of_lt (by omega)]

/-- Storing, at a position already reached, elements that continue the
period. -/
theorem store {d : List α} {k : Nat} (h : Copied b b' dst off n) (hk : k ≤ n)
    (hfit : dst + k + d.length ≤ b.length)
    (hd : ∀ j < d.length, d[j]? = b[dst - off + (k + j) % off]?) :
    Copied b (Lz4rip.store b' (dst + k) d) dst off (k + d.length) := by
  have hl := h.length
  refine ⟨by rw [length_store (by omega), hl], fun i hi => ?_, fun i hi => ?_⟩
  · rw [getElem?_store_lt d (by omega) (by omega), h.below i hi]
  · by_cases hik : i < k
    · rw [getElem?_store_lt d (by omega) (by omega), h.rep i (by omega)]
    · obtain ⟨j, rfl⟩ := Nat.exists_eq_add_of_le (Nat.le_of_not_lt hik)
      rw [← Nat.add_assoc, getElem?_store_mid (by omega) (by omega), hd j (by omega)]

/-- The element `off` before a position reached continues the period there. -/
theorem history (h : Copied b b' dst off n) (ho : off ≤ dst) {i : Nat} (hi : i < off + n) :
    b'[dst - off + i]? = b[dst - off + i % off]? := by
  by_cases hio : i < off
  · rw [Nat.mod_eq_of_lt hio, h.below _ (by omega)]
  · rw [show dst - off + i = dst + (i - off) by omega, h.rep _ (by omega),
      Nat.mod_eq_sub_mod (a := i) (b := off) (by omega)]

/-- Every element of the copy is the one `off` before it. -/
theorem back (h : Copied b b' dst off n) (ho : off ≤ dst) {i : Nat} (hi : i < n) :
    b'[dst + i]? = b'[dst + i - off]? := by
  rw [h.rep i hi, show dst + i - off = dst - off + i by omega, h.history ho (by omega)]

/-- A chunk of the history that is no longer than what has been reached
continues the period. -/
theorem seg_history (h : Copied b b' dst off n) (ho : off ≤ dst) {k c : Nat} (hc : k + c ≤ off + n)
    {j : Nat} (hj : j < c) :
    (seg b' (dst - off + k) c)[j]? = b[dst - off + (k + j) % off]? := by
  rw [getElem?_seg_of_lt _ hj, Nat.add_assoc, h.history ho (by omega)]

/-- One chunk of a copy loop: the `c` elements `off` back, with `c` at most
`off`, stored where the copy has got to. -/
theorem step {c : Nat} (h : Copied b b' dst off n) (ho : off ≤ dst) (hc : c ≤ off)
    (hfit : dst + n + c ≤ b.length) :
    Copied b (Lz4rip.store b' (dst + n) (seg b' (dst - off + n) c)) dst off (n + c) := by
  have hl := h.length
  have hs : (seg b' (dst - off + n) c).length = c := length_seg (by omega)
  have := h.store (d := seg b' (dst - off + n) c) (Nat.le_refl n) (by omega) fun j hj =>
    h.seg_history ho (by omega) (by omega)
  rwa [hs] at this

end Copied

/-! ## Sequences -/

/-- A literal run, and a match of `matchLen` elements `offset` back. -/
structure Sequence (α : Type) where
  literals : List α
  offset : Nat
  matchLen : Nat
  deriving DecidableEq, Repr

namespace Sequence

/-- Decodes a sequence after the history `w`. -/
def apply (s : Sequence α) (w : List α) : Option (List α) :=
  if 0 < s.offset ∧ s.offset ≤ (w ++ s.literals).length then
    some (copyBack (w ++ s.literals) s.offset s.matchLen)
  else none

/-- How many elements a sequence decodes to. -/
def size (s : Sequence α) : Nat := s.literals.length + s.matchLen

theorem apply_eq_some {s : Sequence α} {w r : List α} (h : s.apply w = some r) :
    (0 < s.offset ∧ s.offset ≤ (w ++ s.literals).length) ∧
      r = copyBack (w ++ s.literals) s.offset s.matchLen := by
  unfold apply at h
  split at h
  · exact ⟨‹_›, (Option.some.inj h).symm⟩
  · cases h

theorem length_apply {s : Sequence α} {w r : List α} (h : s.apply w = some r) :
    r.length = w.length + s.size := by
  obtain ⟨⟨h₀, ho⟩, rfl⟩ := apply_eq_some h
  rw [length_copyBack h₀ ho, List.length_append, size, Nat.add_assoc]

theorem take_apply {s : Sequence α} {w r : List α} (h : s.apply w = some r) :
    r.take w.length = w := by
  obtain ⟨-, rfl⟩ := apply_eq_some h
  have := take_copyBack (w ++ s.literals) s.offset s.matchLen
  rw [← Nat.min_eq_left (Nat.le_add_right w.length s.literals.length), ← List.length_append,
    ← List.take_take, this, List.take_left]

theorem apply_append {s : Sequence α} {w r : List α} (a : List α) (h : s.apply w = some r) :
    s.apply (a ++ w) = some (a ++ r) := by
  obtain ⟨⟨h₀, ho⟩, rfl⟩ := apply_eq_some h
  rw [apply, List.append_assoc, if_pos ⟨h₀, by rw [List.length_append]; omega⟩,
    copyBack_append a h₀ ho]

/-- The sequence spells `v` from position `p` on. -/
structure Spells (s : Sequence α) (v : List α) (p : Nat) : Prop where
  literals : s.literals = seg v p s.literals.length
  offset_pos : 0 < s.offset
  offset_le : s.offset ≤ p + s.literals.length
  size_le : p + s.size ≤ v.length
  repeats : ∀ i < s.matchLen, v[p + s.literals.length + i]? = v[p + s.literals.length + i - s.offset]?

theorem Spells.apply {s : Sequence α} {v : List α} {p : Nat} (h : s.Spells v p) :
    s.apply (v.take p) = some (v.take (p + s.size)) := by
  have hs := h.size_le
  have ho := h.offset_le
  rw [size] at hs
  have hl : v.take p ++ s.literals = v.take (p + s.literals.length) := by
    rw [h.literals, take_append_seg, ← h.literals]
  rw [Sequence.apply, hl, if_pos ⟨h.offset_pos, by rw [List.length_take]; omega⟩,
    copyBack_take h.offset_pos ho (by omega) h.repeats, size, Nat.add_assoc]

end Sequence

/-- Decodes sequences after the history `w`. -/
def expand (w : List α) : List (Sequence α) → Option (List α)
  | [] => some w
  | s :: ss => (s.apply w).bind fun v => expand v ss

theorem expand_append (w : List α) (a b : List (Sequence α)) :
    expand w (a ++ b) = (expand w a).bind fun v => expand v b := by
  induction a generalizing w with
  | nil => rfl
  | cons s a ih =>
    simp only [List.cons_append, expand, Option.bind_assoc]
    exact congrArg _ (funext fun v => ih v)

/-- How many elements sequences decode to. -/
def sizes (ss : List (Sequence α)) : Nat := (ss.map Sequence.size).sum

@[simp] theorem sizes_nil : sizes ([] : List (Sequence α)) = 0 := rfl

@[simp] theorem sizes_cons (s : Sequence α) (ss : List (Sequence α)) :
    sizes (s :: ss) = s.size + sizes ss := by
  simp [sizes]

theorem length_expand {w r : List α} {ss : List (Sequence α)} (h : expand w ss = some r) :
    r.length = w.length + sizes ss := by
  induction ss generalizing w with
  | nil => cases h; simp
  | cons s ss ih =>
    obtain ⟨v, hv, hr⟩ := Option.bind_eq_some_iff.mp h
    rw [ih hr, Sequence.length_apply hv, sizes_cons, Nat.add_assoc]

/-- More history changes nothing for sequences that decode without it. -/
theorem expand_prepend {w r : List α} {ss : List (Sequence α)} (a : List α)
    (h : expand w ss = some r) : expand (a ++ w) ss = some (a ++ r) := by
  induction ss generalizing w with
  | nil => cases h; rfl
  | cons s ss ih =>
    obtain ⟨v, hv, hr⟩ := Option.bind_eq_some_iff.mp h
    rw [expand, Sequence.apply_append a hv, Option.bind_some, ih hr]

/-- A history as long as the largest offset is as good as any longer one. -/
theorem expand_append_history (a : List α) {w : List α} {ss : List (Sequence α)}
    (h : ∀ s ∈ ss, s.offset ≤ w.length) :
    expand (a ++ w) ss = (expand w ss).map (a ++ ·) := by
  induction ss generalizing w with
  | nil => rfl
  | cons s ss ih =>
    have hs := h s List.mem_cons_self
    cases hv : s.apply w with
    | some v =>
      have hl := Sequence.length_apply hv
      rw [expand, expand, Sequence.apply_append a hv, hv, Option.bind_some, Option.bind_some,
        ih fun s' hs' => Nat.le_trans (h s' (List.mem_cons_of_mem _ hs')) (by omega)]
    | none =>
      have hn : s.apply (a ++ w) = none := by
        simp only [Sequence.apply, List.length_append, ite_eq_right_iff, reduceCtorEq, imp_false,
          not_and] at hv ⊢
        intro h₀
        have := hv h₀
        omega
      rw [expand, expand, hn, hv]
      rfl

/-- The sequences spell `v` from `p` to `q`. -/
inductive Spelled (v : List α) (p : Nat) : List (Sequence α) → Nat → Prop where
  | nil : Spelled v p [] p
  | snoc {ss : List (Sequence α)} {q : Nat} {s : Sequence α} : Spelled v p ss q → s.Spells v q →
      Spelled v p (ss ++ [s]) (q + s.size)

/-- Sequences that spell a text decode to it. -/
theorem Spelled.expand {v : List α} {p q : Nat} {ss : List (Sequence α)} (h : Spelled v p ss q) :
    Lz77.expand (v.take p) ss = some (v.take q) := by
  induction h with
  | nil => rfl
  | snoc _ hs ih =>
    rw [expand_append, ih, Option.bind_some, Lz77.expand, hs.apply, Option.bind_some, Lz77.expand]

end Lz4rip.Lz77
