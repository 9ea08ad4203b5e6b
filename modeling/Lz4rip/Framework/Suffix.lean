import Mathlib

/-!
# The longest suffix within a budget

`Longest w B l s`: of the suffixes of `l` whose elements weigh `B` at most
together, `s` is the longest. There is one (`longest_dropTo`, from the front, like
a queue that is emptied), and it is kept up when an element is added at the end
(`Longest.concat`): what the newcomer has no room for is dropped first.
-/

namespace Lz4rip

variable {α : Type} {w : α → Nat} {B : Nat}

/-- What the elements weigh together. -/
def total (w : α → Nat) (l : List α) : Nat := (l.map w).sum

@[simp] theorem total_nil (w : α → Nat) : total w [] = 0 := rfl

@[simp] theorem total_cons (w : α → Nat) (a : α) (l : List α) : total w (a :: l) = w a + total w l := by
  simp [total]

@[simp] theorem total_append (w : α → Nat) (l m : List α) :
    total w (l ++ m) = total w l + total w m := by
  simp [total]

theorem total_le {l : List α} {c : Nat} (h : ∀ a ∈ l, w a ≤ c) : total w l ≤ l.length * c := by
  induction l with
  | nil => exact Nat.zero_le _
  | cons a l ih =>
    have ha := h a List.mem_cons_self
    have ih := ih fun b hb => h b (List.mem_cons_of_mem a hb)
    rw [total_cons, List.length_cons, Nat.succ_mul]
    omega

theorem le_total {l : List α} {c : Nat} (h : ∀ a ∈ l, c ≤ w a) : l.length * c ≤ total w l := by
  induction l with
  | nil => exact Nat.le_of_eq (Nat.zero_mul c)
  | cons a l ih =>
    have ha := h a List.mem_cons_self
    have ih := ih fun b hb => h b (List.mem_cons_of_mem a hb)
    rw [total_cons, List.length_cons, Nat.succ_mul]
    omega

/-- `s` is the longest suffix of `l` that weighs `B` at most. -/
structure Longest (w : α → Nat) (B : Nat) (l s : List α) : Prop where
  suffix : s <:+ l
  le : total w s ≤ B
  maximal (s' : List α) : s' <:+ l → total w s' ≤ B → s'.length ≤ s.length

theorem Longest.nil : Longest w B [] [] where
  suffix := List.suffix_rfl
  le := Nat.zero_le _
  maximal _ h _ := h.length_le

/-- `l`, with elements dropped from the front until it weighs `B` at most. -/
def dropTo (w : α → Nat) (B : Nat) : List α → List α
  | [] => []
  | a :: l => if total w (a :: l) ≤ B then a :: l else dropTo w B l

theorem dropTo_of_le {l : List α} (h : total w l ≤ B) : dropTo w B l = l := by
  cases l with
  | nil => rfl
  | cons a l => exact if_pos h

theorem dropTo_of_lt {a : α} {l : List α} (h : B < total w (a :: l)) :
    dropTo w B (a :: l) = dropTo w B l := if_neg (Nat.not_le.mpr h)

theorem longest_dropTo (w : α → Nat) (B : Nat) : ∀ l : List α, Longest w B l (dropTo w B l)
  | [] => .nil
  | a :: l => by
    by_cases h : total w (a :: l) ≤ B
    · rw [dropTo_of_le h]
      exact ⟨List.suffix_rfl, h, fun _ hs _ => hs.length_le⟩
    · have ih := longest_dropTo w B l
      rw [dropTo_of_lt (Nat.not_le.mp h)]
      refine ⟨ih.suffix.trans (List.suffix_cons a l), ih.le, fun _ hs hle => ?_⟩
      rcases List.suffix_cons_iff.mp hs with rfl | hs
      · exact absurd hle h
      · exact ih.maximal _ hs hle

/-- A newcomer, and room made for it. -/
theorem Longest.concat {l s : List α} {a : α} (h : Longest w B l s) (ha : w a ≤ B) :
    Longest w B (l ++ [a]) (dropTo w (B - w a) s ++ [a]) := by
  have hd := longest_dropTo w (B - w a) s
  have hle := hd.le
  refine ⟨?_, ?_, fun s' hs' hle' => ?_⟩
  · obtain ⟨t, ht⟩ := hd.suffix.trans h.suffix
    exact ⟨t, by rw [← List.append_assoc, ht]⟩
  · rw [total_append, total_cons, total_nil]
    omega
  · rcases List.suffix_concat_iff.mp hs' with rfl | ⟨t, rfl, ht⟩
    · exact Nat.zero_le _
    · rw [total_append, total_cons, total_nil] at hle'
      -- what is in front of the newcomer was within the budget before
      have hts : t <:+ s := List.suffix_of_suffix_length_le ht h.suffix (h.maximal t ht (by omega))
      have := hd.maximal t hts (by omega)
      rw [List.length_append, List.length_append]
      exact Nat.add_le_add_right this _

/-- As many elements stay as fit whatever they are. -/
theorem Longest.min_le_length {l s : List α} {m c : Nat} (h : Longest w B l s)
    (hc : ∀ a ∈ l, w a ≤ c) (hm : m * c ≤ B) : min m l.length ≤ s.length := by
  have hlen : (l.drop (l.length - m)).length = min m l.length := by
    rw [List.length_drop]
    omega
  have hle : total w (l.drop (l.length - m)) ≤ B := by
    calc total w (l.drop (l.length - m)) ≤ (l.drop (l.length - m)).length * c :=
          total_le fun a ha => hc a (List.mem_of_mem_drop ha)
      _ ≤ m * c := Nat.mul_le_mul_right c (hlen ▸ Nat.min_le_left m _)
      _ ≤ B := hm
  exact hlen ▸ h.maximal _ (List.drop_suffix _ l) hle

end Lz4rip
