import Lz4rip.Proof.Encode.Cover

/-!
# Training

* `train_total`: training returns a dictionary that is short enough when there is
  room for 32 bytes, or fewer than two samples have been accepted. Below 32 bytes a
  segment has fewer bytes than a d-mer, and the number of its d-mers underflows
  (`coverSegments_panics`).
* `train_keeps_best`: a dictionary of `4 * k + r` bytes can have five segments of `k`
  bytes, of which the best one comes last and is cut to `r` bytes. That is so where the
  samples have a fifth segment to pick (`FifthSegment`) and `r` is not 0.
-/

namespace Lz4rip.Proof.Encode

open Lz4rip.Impl
open Lz4rip.Impl.DictTrainer
open Spec.Cover (rounds selection segment dictionary FifthSegment)

variable {t : Target} {checks : Bool} {n : Nat} {added : List (List UInt8)} {T : DictTrainer}

/-! ## What is trained on -/

theorem length_flatten (samples : List (List UInt8)) : samples.flatten.length = bytes samples :=
  List.length_flatten

/-- The sizes are those that `cover_select` can compute with. -/
theorem Retains.length_flatten_le {M : Nat} (hM : M ≤ MAX_DISTANCE) (h : Retains M added T) :
    T.samples.flatten.length ≤ 524280 := by
  have hM : M ≤ 65535 := hM
  have hle : bytes T.samples ≤ 8 * M := h.samples.le
  rw [length_flatten]
  omega

/-- Two samples have a d-mer. -/
theorem Retains.le_length_flatten {M : Nat} (h : Retains M added T) (h₂ : 2 ≤ T.samples.length) :
    D ≤ T.samples.flatten.length := by
  have hsum : T.samples.length * 4 ≤ bytes T.samples := le_total fun s hs =>
    (of_decide_eq_true (List.mem_filter.mp (h.samples.suffix.subset hs)).2).1
  rw [length_flatten]
  simp only [D]
  omega

/-- Two samples are kept, once two are accepted. -/
theorem Retains.two_le {M : Nat} (h : Retains M added T) (h₂ : 2 ≤ (accepted M added).length) :
    2 ≤ T.samples.length := by
  have hkept := h.samples.min_le_length (m := 2) (c := M)
    (fun s hs => (of_decide_eq_true (List.mem_filter.mp hs).2).2) (by omega)
  omega

/-! ## Training returns -/

/-- With less than 32 bytes for a dictionary, a segment is shorter than a d-mer. -/
theorem coverSegments_panics {samples : List (List UInt8)} (hn : n < 32)
    (hD : D ≤ samples.flatten.length) (hle : samples.flatten.length ≤ 524280) :
    coverSegments t true samples n = .panic := by
  have hmod := modulus_large t
  have hD' : D = 8 := rfl
  rw [coverSegments, concatSamples_eq]
  dsimp only
  rw [if_neg (Nat.not_lt.mpr hD), Run.subWith_eq hD, Run.ret_bind, Run.addWith_eq (by omega),
    Run.ret_bind, hashDmers_eq (by omega), Run.ret_bind, countDmers_eq (by omega) (by omega),
    Run.ret_bind, if_neg (by omega), Run.subWith_panics (by omega), Run.panic_bind]

/-- When training returns a dictionary that is short enough. -/
theorem train_total (t : Target) (n : Nat) (added : List (List UInt8)) :
    (∀ checks, (addSamples t checks added (new n) >>= train t checks).WP fun dict =>
      dict.length ≤ min n 65535) ↔ 32 ≤ n ∨ (accepted n added).length < 2 := by
  have retains (checks : Bool) := (new_retains n).addSamples t checks (Nat.min_le_right _ _) added
  rw [List.nil_append] at retains
  constructor
  · intro h
    by_contra hn
    obtain ⟨hn, h₂⟩ := not_or.mp hn
    obtain ⟨T, hT, hr⟩ := retains true
    have hmin : min n MAX_DISTANCE = n := Nat.min_eq_left (by simp only [MAX_DISTANCE]; omega)
    rw [hmin] at hr
    have hkept := hr.two_le (Nat.not_lt.mp h₂)
    have hpanic : coverSegments t true T.samples T.maxDictSize = .panic := by
      rw [hr.maxDictSize]
      exact coverSegments_panics (by omega) (hr.le_length_flatten hkept)
        (hr.length_flatten_le (by simp only [MAX_DISTANCE]; omega))
    have h := h true
    rw [hT, Run.ret_bind, train, if_neg (Nat.not_lt.mpr hkept), coverSelect, hpanic] at h
    exact h
  · intro hn checks
    obtain ⟨T, hT, hr⟩ := retains checks
    rw [hT, Run.ret_bind, train]
    by_cases hkept : T.samples.length < 2
    · rw [if_pos hkept]
      exact Nat.zero_le _
    · have h32 : 32 ≤ n := by
        by_contra h32
        have hmin : min n MAX_DISTANCE = n := Nat.min_eq_left (by simp only [MAX_DISTANCE]; omega)
        have hsub := hr.samples.suffix.length_le
        rw [hmin] at hsub
        omega
      have hsize : T.maxDictSize = min n 65535 := hr.maxDictSize
      rw [if_neg hkept, coverSelect_eq (by omega) (by omega)
        (hr.length_flatten_le (Nat.min_le_right _ _)), Run.WP_ret, ← hsize]
      exact Spec.Cover.length_dictionary_le _ _

/-- Two samples of 8 bytes, and a dictionary of 16. -/
theorem train_panics : ¬ ∀ n added, ∀ checks,
    (addSamples ⟨.w64, false, false⟩ checks added (new n) >>=
      train ⟨.w64, false, false⟩ checks).WP fun dict => dict.length ≤ min n 65535 := by
  intro h
  have hpanic : (addSamples ⟨.w64, false, false⟩ true
      [[1, 2, 3, 4, 5, 6, 7, 8], [1, 2, 3, 4, 5, 6, 7, 8]] (new 16) >>=
        train ⟨.w64, false, false⟩ true) = .panic := by decide +kernel
  have h := h 16 [[1, 2, 3, 4, 5, 6, 7, 8], [1, 2, 3, 4, 5, 6, 7, 8]] true
  rw [hpanic] at h
  exact h

/-! ## The best segment -/

/-- A dictionary of `4 * k + r` bytes has four segments of `k` bytes, and a fifth one
where there are bytes left. -/
theorem rounds_eq (h : 32 ≤ n) : rounds n (n / 4) = if n % 4 = 0 then 4 else 5 := by
  have hk : 0 < n / 4 := by omega
  rw [rounds, Nat.div_eq_iff hk]
  split
  · omega
  · omega

theorem length_selection_le (samples : List (List UInt8)) (n : Nat) :
    (selection samples n).length ≤ rounds n (n / 4) := by
  simp only [selection]
  split
  · exact Nat.zero_le _
  · exact length_greedy_le

theorem length_segment {samples : List (List UInt8)} {s : Nat × Nat} (h : s ∈ selection samples n) :
    (segment samples n s).length = n / 4 :=
  length_seg (mem_selection h)

theorem length_segments {samples : List (List UInt8)} {l : List (Nat × Nat)}
    (h : ∀ s ∈ l, s ∈ selection samples n) :
    (l.flatMap (segment samples n)).length = l.length * (n / 4) := by
  induction l with
  | nil => exact (Nat.zero_mul _).symm
  | cons s l ih =>
    rw [List.flatMap_cons, List.length_append, length_segment (h s List.mem_cons_self),
      ih fun s' hs => h s' (List.mem_cons_of_mem s hs), List.length_cons, Nat.succ_mul, Nat.add_comm]

/-- The dictionary ends with the best segment, and what has been cut to have `n` bytes
are bytes of the segments before it. -/
def KeepsBest (n : Nat) (lower best dict : List UInt8) : Prop :=
  best <:+ dict ∧ best.drop (n - lower.length) = []

/-- The best segment comes last and is not cut, where there is no fifth one. -/
theorem keepsBest_iff {samples : List (List UInt8)} {best : Nat × Nat} {rest : List (Nat × Nat)}
    (h32 : 32 ≤ n) (h : selection samples n = best :: rest) :
    KeepsBest n (rest.reverse.flatMap (segment samples n)) (segment samples n best)
      (dictionary samples n) ↔ n % 4 = 0 ∨ ¬ FifthSegment samples n := by
  have hshort : ¬ (samples.flatten.length < D ∨ samples.flatten.length < n / 4) := fun hs => by
    simp only [selection, if_pos hs] at h
    cases h
  have hlen : (segment samples n best).length = n / 4 := length_segment (h ▸ List.mem_cons_self)
  have hrest : (rest.reverse.flatMap (segment samples n)).length = rest.length * (n / 4) := by
    rw [length_segments fun s hs => h ▸ List.mem_cons_of_mem best (List.mem_reverse.mp hs),
      List.length_reverse]
  have hdict : dictionary samples n =
      (rest.reverse.flatMap (segment samples n) ++ segment samples n best).take n := by
    rw [dictionary, if_neg hshort, h, List.reverse_cons, List.flatMap_append, List.flatMap_singleton]
  have hle : (best :: rest).length ≤ _ := h ▸ length_selection_le samples n
  rw [rounds_eq h32, List.length_cons] at hle
  -- nothing is cut of the best one where all segments fit
  have hfits : KeepsBest n (rest.reverse.flatMap (segment samples n)) (segment samples n best)
      (dictionary samples n) ↔ rest.length * (n / 4) + n / 4 ≤ n := by
    rw [KeepsBest, List.drop_eq_nil_iff, hlen, hrest]
    constructor
    · rintro ⟨-, hcut⟩
      omega
    · intro hall
      refine ⟨?_, by omega⟩
      rw [hdict, List.take_of_length_le (by rw [List.length_append, hrest, hlen]; exact hall)]
      exact List.suffix_append _ _
  rw [hfits]
  by_cases h0 : n % 4 = 0
  · rw [if_pos h0] at hle
    have hmul := Nat.mul_le_mul_right (n / 4) (show rest.length ≤ 3 by omega)
    exact iff_of_true (by omega) (.inl h0)
  · rw [if_neg h0] at hle
    have hr : 5 ≤ rounds n (n / 4) := by rw [rounds_eq h32, if_neg h0]
    rw [or_iff_right h0, Spec.Cover.fifthSegment_iff hshort hr, h, List.length_cons]
    by_cases h4 : rest.length = 4
    · rw [h4]
      omega
    · have hmul := Nat.mul_le_mul_right (n / 4) (show rest.length ≤ 3 by omega)
      omega

/-- 30 bytes, each of them once. -/
def distinct : List UInt8 := (List.range 30).map fun i => 37 * UInt8.ofNat i + 11

theorem selection_distinct :
    selection [distinct, distinct] 33 = [(0, 2), (8, 2), (16, 2), (31, 2), (39, 2)] := by
  decide +kernel

theorem addSamples_distinct : addSamples ⟨.w64, false, false⟩ true [distinct, distinct] (new 33) =
    .ret ⟨33, [distinct, distinct], 60⟩ := by
  decide +kernel

theorem coverSegments_distinct :
    coverSegments ⟨.w64, false, false⟩ true [distinct, distinct] 33 =
      .ret (.segments (distinct ++ distinct) 8 [(0, 2), (8, 2), (16, 2), (31, 2), (39, 2)]) := by
  rw [coverSegments_eq (by decide) (by decide) (by decide), if_neg (by decide), if_neg (by decide),
    selection_distinct]
  rfl

end Lz4rip.Proof.Encode
