import Mathlib

/-!
# Greedy coverage

Positions have labels and labels have weights. A window of `m` positions scores what
its labels weigh (`windowScore`). `greedy` selects windows one after the other: each
time the first that scores highest (`best`), whose labels weigh nothing from then on
(`clear`) and whose `k` positions start no other window. It stops where nothing
scores. So no window that is selected scores more than the ones before it
(`greedy_le_best`).

`Picks` says what the next window is without a selection: the first that covers most of
what those before it leave. How many windows `greedy` selects is how many can be picked
one after the other (`le_length_greedy`).
-/

namespace Lz4rip

/-! ## The first of the highest -/

/-- The first position below `n` that scores highest, of those that are not skipped,
and its score; `(0, 0)` if none scores. -/
def best (score : Nat → Nat) (skip : Nat → Bool) : Nat → Nat × Nat
  | 0 => (0, 0)
  | n + 1 =>
    if skip n then best score skip n
    else if (best score skip n).2 < score n then (n, score n) else best score skip n

section

variable {score score' : Nat → Nat} {skip skip' : Nat → Bool}

theorem best_succ_ge (n : Nat) : (best score skip n).2 ≤ (best score skip (n + 1)).2 := by
  rw [best]
  split
  · exact Nat.le_refl _
  split
  · exact Nat.le_of_lt ‹_›
  · exact Nat.le_refl _

/-- No position scores more. -/
theorem le_best {p : Nat} (hs : skip p = false) : ∀ {n : Nat}, p < n → score p ≤ (best score skip n).2
  | 0, h => absurd h (Nat.not_lt_zero p)
  | n + 1, h => by
    rcases Nat.lt_succ_iff_lt_or_eq.mp h with h | rfl
    · exact Nat.le_trans (le_best hs h) (best_succ_ge n)
    · rw [best, hs, if_neg Bool.false_ne_true]
      split
      · exact Nat.le_refl _
      · exact Nat.le_of_not_lt ‹_›

/-- What scores is a position with this score. -/
theorem best_of_ne_zero : ∀ {n : Nat}, (best score skip n).2 ≠ 0 →
    (best score skip n).1 < n ∧ skip (best score skip n).1 = false ∧
      score (best score skip n).1 = (best score skip n).2
  | 0, h => absurd rfl h
  | n + 1, h => by
    have keep (h : (best score skip n).2 ≠ 0) : (best score skip n).1 < n + 1 ∧
        skip (best score skip n).1 = false ∧
          score (best score skip n).1 = (best score skip n).2 :=
      have ⟨hlt, hs, he⟩ := best_of_ne_zero h
      ⟨Nat.lt_succ_of_lt hlt, hs, he⟩
    rw [best] at h ⊢
    by_cases hskip : skip n = true
    · rw [if_pos hskip] at h ⊢
      exact keep h
    · rw [if_neg hskip] at h ⊢
      by_cases hlt : (best score skip n).2 < score n
      · rw [if_pos hlt]
        exact ⟨Nat.lt_succ_self n, Bool.eq_false_iff.mpr hskip, rfl⟩
      · rw [if_neg hlt] at h ⊢
        exact keep h

/-- The positions before it score less. -/
theorem lt_best {p : Nat} (hs : skip p = false) : ∀ {n : Nat}, (best score skip n).2 ≠ 0 →
    p < (best score skip n).1 → score p < (best score skip n).2
  | 0, h, _ => absurd rfl h
  | n + 1, h, hp => by
    rw [best] at h hp ⊢
    by_cases hskip : skip n = true
    · rw [if_pos hskip] at h hp ⊢
      exact lt_best hs h hp
    · rw [if_neg hskip] at h hp ⊢
      by_cases hlt : (best score skip n).2 < score n
      · rw [if_pos hlt] at hp ⊢
        exact Nat.lt_of_le_of_lt (le_best hs hp) hlt
      · rw [if_neg hlt] at h hp ⊢
        exact lt_best hs h hp

/-- The first that scores highest is the one that is found. -/
theorem eq_best {n p : Nat} (hp : p < n) (hs : skip p = false) (hpos : 0 < score p)
    (hle : ∀ p' < n, skip p' = false → score p' ≤ score p)
    (hfirst : ∀ p' < p, skip p' = false → score p' < score p) :
    (best score skip n).2 ≠ 0 ∧ (best score skip n).1 = p := by
  have hge : score p ≤ (best score skip n).2 := le_best hs hp
  have hne : (best score skip n).2 ≠ 0 := by omega
  obtain ⟨hlt, hskip, he⟩ := best_of_ne_zero hne
  refine ⟨hne, ?_⟩
  rcases Nat.lt_trichotomy (best score skip n).1 p with h | h | h
  · have := hfirst _ h hskip
    omega
  · exact h
  · have := lt_best hs hne h
    have := hle _ hlt hskip
    omega

/-- With lower scores and more positions skipped, the best is lower. -/
theorem best_mono (hscore : ∀ p, score' p ≤ score p) (hskip : ∀ p, skip' p = false → skip p = false)
    (n : Nat) : (best score' skip' n).2 ≤ (best score skip n).2 := by
  by_cases h : (best score' skip' n).2 = 0
  · omega
  · obtain ⟨hlt, hs, he⟩ := best_of_ne_zero h
    rw [← he]
    exact Nat.le_trans (hscore _) (le_best (hskip _ hs) hlt)

end

/-! ## Windows -/

section

variable {α : Type} (label : Nat → α) (m : Nat)

/-- What the labels of the positions below `n` weigh. -/
def prefixScore (w : α → Nat) : Nat → Nat
  | 0 => 0
  | n + 1 => prefixScore w n + w (label n)

/-- What the labels of the `m` positions from `p` on weigh. -/
def windowScore (w : α → Nat) (p : Nat) : Nat := prefixScore (fun i => label (p + i)) w m

variable {label m} {w w' : α → Nat}

theorem prefixScore_add (p : Nat) :
    ∀ n, prefixScore label w (p + n) = prefixScore label w p + prefixScore (fun i => label (p + i)) w n
  | 0 => rfl
  | n + 1 => by
    rw [← Nat.add_assoc, prefixScore, prefixScore_add p n, prefixScore, Nat.add_assoc]

theorem windowScore_eq_sub (p : Nat) :
    windowScore label m w p = prefixScore label w (p + m) - prefixScore label w p := by
  rw [prefixScore_add, Nat.add_sub_cancel_left, windowScore]

theorem prefixScore_mono (h : ∀ a, w' a ≤ w a) : ∀ n, prefixScore label w' n ≤ prefixScore label w n
  | 0 => Nat.le_refl _
  | n + 1 => Nat.add_le_add (prefixScore_mono h n) (h _)

theorem prefixScore_le {B : Nat} (h : ∀ a, w a ≤ B) : ∀ n, prefixScore label w n ≤ n * B
  | 0 => Nat.zero_le _
  | n + 1 => by
    rw [prefixScore, Nat.succ_mul]
    exact Nat.add_le_add (prefixScore_le h n) (h _)

theorem windowScore_mono (h : ∀ a, w' a ≤ w a) (p : Nat) :
    windowScore label m w' p ≤ windowScore label m w p := prefixScore_mono h m

end

/-! ## The selection -/

section

variable {α : Type} [DecidableEq α] (label : Nat → α)

/-- The weights, when the labels of the `m` positions from `p` on weigh nothing. -/
def clear (m : Nat) (w : α → Nat) (p : Nat) : α → Nat := fun a =>
  if a ∈ (List.range m).map fun i => label (p + i) then 0 else w a

theorem clear_zero (w : α → Nat) (p : Nat) : clear label 0 w p = w := by
  funext a
  exact if_neg List.not_mem_nil

theorem clear_succ (m : Nat) (w : α → Nat) (p : Nat) :
    clear label (m + 1) w p = fun a => if a = label (p + m) then 0 else clear label m w p a := by
  funext a
  simp only [clear, List.range_succ, List.map_append, List.map_singleton, List.mem_append,
    List.mem_singleton]
  by_cases ha : a = label (p + m)
  · rw [if_pos (.inr ha), if_pos ha]
  · simp only [ha, or_false, if_false]

theorem clear_le (m : Nat) (w : α → Nat) (p : Nat) (a : α) : clear label m w p a ≤ w a := by
  unfold clear
  split
  · exact Nat.zero_le _
  · exact Nat.le_refl _

/-- At most so many windows of the first `n` positions, with their scores, in the
order of their selection. -/
def greedy (n m k : Nat) : Nat → (α → Nat) → (Nat → Bool) → List (Nat × Nat)
  | 0, _, _ => []
  | rounds + 1, w, skip =>
    let b := best (windowScore label m w) skip n
    if b.2 = 0 then []
    else b :: greedy n m k rounds (clear label m w b.1)
      fun p => skip p || decide (b.1 ≤ p ∧ p < b.1 + k)

variable {label} {n m k : Nat}

theorem length_greedy_le : ∀ {rounds : Nat} {w : α → Nat} {skip : Nat → Bool},
    (greedy label n m k rounds w skip).length ≤ rounds
  | 0, _, _ => Nat.le_refl _
  | rounds + 1, w, skip => by
    rw [greedy]
    split
    · exact Nat.zero_le _
    · exact Nat.succ_le_succ length_greedy_le

/-- A window that is selected is one of the first `n`, and not skipped. -/
theorem mem_greedy {s : Nat × Nat} : ∀ {rounds : Nat} {w : α → Nat} {skip : Nat → Bool},
    s ∈ greedy label n m k rounds w skip → s.1 < n ∧ skip s.1 = false
  | 0, _, _, h => nomatch h
  | rounds + 1, w, skip, h => by
    rw [greedy] at h
    split at h
    · cases h
    rename_i hne
    obtain ⟨hlt, hs, -⟩ := best_of_ne_zero hne
    rcases List.mem_cons.mp h with rfl | h
    · exact ⟨hlt, hs⟩
    · obtain ⟨hlt, hs⟩ := mem_greedy h
      exact ⟨hlt, (Bool.or_eq_false_iff.mp hs).1⟩

/-- No window that is selected scores more than the best one. -/
theorem greedy_le_best {s : Nat × Nat} : ∀ {rounds : Nat} {w : α → Nat} {skip : Nat → Bool},
    s ∈ greedy label n m k rounds w skip → s.2 ≤ (best (windowScore label m w) skip n).2
  | 0, _, _, h => nomatch h
  | rounds + 1, w, skip, h => by
    rw [greedy] at h
    split at h
    · cases h
    rcases List.mem_cons.mp h with rfl | h
    · exact Nat.le_refl _
    · -- afterwards labels weigh less, and more positions are skipped
      refine Nat.le_trans (greedy_le_best h) ?_
      exact best_mono (windowScore_mono (clear_le label m w _))
        (fun p hp => (Bool.or_eq_false_iff.mp hp).1) n

/-- The first window that is selected is the best one, and the others score less. -/
theorem greedy_cons {rounds : Nat} {w : α → Nat} {skip : Nat → Bool} {b : Nat × Nat}
    {rest : List (Nat × Nat)} (h : greedy label n m k rounds w skip = b :: rest) :
    b = best (windowScore label m w) skip n ∧ ∀ s ∈ rest, s.2 ≤ b.2 := by
  have hb : b = best (windowScore label m w) skip n := by
    cases rounds with
    | zero => cases h
    | succ rounds =>
      rw [greedy] at h
      split at h
      · cases h
      · exact (List.cons.inj h).1.symm
  refine ⟨hb, fun s hs => ?_⟩
  rw [hb]
  exact greedy_le_best (h ▸ List.mem_cons_of_mem b hs)

end

/-! ## What can be picked -/

section

variable {α : Type} [DecidableEq α] (label : Nat → α)

/-- What the labels weigh that are in none of the windows at `qs`. -/
def uncovered (m : Nat) (w : α → Nat) (qs : List Nat) : α → Nat := fun a =>
  if a ∈ qs.flatMap fun q => (List.range m).map fun i => label (q + i) then 0 else w a

/-- None of the `k` positions from one of `qs` on. -/
def Free (k : Nat) (qs : List Nat) (p : Nat) : Prop := ∀ q ∈ qs, ¬ (q ≤ p ∧ p < q + k)

/-- The window at `p` is the first that covers most of what those at `qs` leave. -/
structure Picks (n m k : Nat) (w : α → Nat) (qs : List Nat) (p : Nat) : Prop where
  lt : p < n
  free : Free k qs p
  pos : 0 < windowScore label m (uncovered label m w qs) p
  le : ∀ p' < n, Free k qs p' → windowScore label m (uncovered label m w qs) p' ≤
    windowScore label m (uncovered label m w qs) p
  first : ∀ p' < p, Free k qs p' → windowScore label m (uncovered label m w qs) p' <
    windowScore label m (uncovered label m w qs) p

/-- After the windows at `qs`, the ones at `ps` are picked one after the other. -/
def Picked (n m k : Nat) (w : α → Nat) : List Nat → List Nat → Prop
  | _, [] => True
  | qs, p :: ps => Picks label n m k w qs p ∧ Picked n m k w (p :: qs) ps

variable {label} {n m k : Nat} {w : α → Nat} {qs : List Nat}

theorem uncovered_cons (p : Nat) :
    uncovered label m w (p :: qs) = clear label m (uncovered label m w qs) p := by
  funext a
  simp only [uncovered, clear, List.flatMap_cons, List.mem_append]
  by_cases h : a ∈ (List.range m).map fun i => label (p + i)
  · rw [if_pos (.inl h), if_pos h]
  · simp only [h, false_or, if_false]

/-- The positions that the windows at `qs` have. -/
def taken (k : Nat) (qs : List Nat) (p : Nat) : Bool := qs.any fun q => decide (q ≤ p ∧ p < q + k)

theorem taken_eq_false {p : Nat} : taken k qs p = false ↔ Free k qs p := by
  simp only [taken, List.any_eq_false, decide_eq_true_eq, Free]

theorem taken_cons (q : Nat) : (taken k (q :: qs)) =
    fun p => taken k qs p || decide (q ≤ p ∧ p < q + k) := by
  funext p
  rw [taken, List.any_cons, Bool.or_comm, taken]

/-- Another window can be picked where one scores, and then it is the one that scores
highest. -/
theorem picks_iff {p : Nat} : Picks label n m k w qs p ↔
    (best (windowScore label m (uncovered label m w qs)) (taken k qs) n).2 ≠ 0 ∧
      (best (windowScore label m (uncovered label m w qs)) (taken k qs) n).1 = p := by
  constructor
  · exact fun h => eq_best h.lt (taken_eq_false.mpr h.free) h.pos
      (fun p' hp' hf => h.le p' hp' (taken_eq_false.mp hf))
      fun p' hp' hf => h.first p' hp' (taken_eq_false.mp hf)
  · rintro ⟨hne, rfl⟩
    obtain ⟨hlt, hs, he⟩ := best_of_ne_zero hne
    refine ⟨hlt, taken_eq_false.mp hs, ?_, fun p' hp' hf => ?_, fun p' hp' hf => ?_⟩
    · rw [he]
      exact Nat.pos_of_ne_zero hne
    · rw [he]
      exact le_best (taken_eq_false.mpr hf) hp'
    · rw [he]
      exact lt_best (taken_eq_false.mpr hf) hne hp'

/-- How many windows are selected. -/
theorem le_length_greedy : ∀ {rounds j : Nat} (qs : List Nat), j ≤ rounds →
    (j ≤ (greedy label n m k rounds (uncovered label m w qs) (taken k qs)).length ↔
      ∃ ps, ps.length = j ∧ Picked label n m k w qs ps)
  | _, 0, _, _ => iff_of_true (Nat.zero_le _) ⟨[], rfl, trivial⟩
  | 0, j + 1, _, h => absurd h (Nat.not_succ_le_zero j)
  | rounds + 1, j + 1, qs, h => by
    rw [greedy]
    split
    · rename_i hzero
      refine iff_of_false (Nat.not_succ_le_zero j) ?_
      rintro ⟨_ | ⟨p, ps⟩, hlen, hps⟩
      · cases hlen
      · exact (picks_iff.mp hps.1).1 hzero
    · rename_i hne
      rw [← uncovered_cons, ← taken_cons, List.length_cons, Nat.succ_le_succ_iff,
        le_length_greedy _ (Nat.le_of_succ_le_succ h)]
      constructor
      · rintro ⟨ps, hlen, hps⟩
        exact ⟨_ :: ps, congrArg (· + 1) hlen, picks_iff.mpr ⟨hne, rfl⟩, hps⟩
      · rintro ⟨_ | ⟨p, ps⟩, hlen, hps⟩
        · cases hlen
        · obtain ⟨hp, hps⟩ := hps
          obtain ⟨-, rfl⟩ := picks_iff.mp hp
          exact ⟨ps, Nat.succ.inj hlen, hps⟩

end

end Lz4rip
