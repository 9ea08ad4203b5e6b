import Lz4rip.Framework.Suffix
import Lz4rip.Impl.Encode.Dict

/-!
# The samples that a trainer keeps

After any calls of `add_sample` the trainer keeps the longest suffix of the accepted
samples that fits its budget, and `total_bytes` is what they add up to
(`Retains`, kept by each call: `addSample_retains`). Nothing overflows, so it makes
no difference whether arithmetic is checked. The sizes are those of `new`, which caps
the dictionary at `MAX_DISTANCE` (`addSamples_retains`).
-/

namespace Lz4rip.Proof.Encode

open Lz4rip.Impl
open Lz4rip.Impl.DictTrainer

variable {t : Target} {checks : Bool} {M : Nat}

/-- What samples add up to. -/
abbrev bytes : List (List UInt8) → Nat := total List.length

/-- The samples whose length is from `MINMATCH` to `M`. -/
def accepted (M : Nat) (added : List (List UInt8)) : List (List UInt8) :=
  added.filter fun sample => MINMATCH ≤ sample.length ∧ sample.length ≤ M

/-- A trainer for `M` bytes, after the samples `added`. -/
structure Retains (M : Nat) (added : List (List UInt8)) (T : DictTrainer) : Prop where
  maxDictSize : T.maxDictSize = M
  samples : Longest List.length (8 * M) (accepted M added) T.samples
  totalBytes : T.totalBytes = bytes T.samples

/-- What is left when there is room for `len` bytes. -/
theorem evict_eq {budget len : Nat} (hlen : len ≤ budget) :
    ∀ {T : DictTrainer}, T.totalBytes = bytes T.samples → T.totalBytes + len < t.modulus →
      Run.loop (evictStep t checks budget len) (T.samples.length + 1) T =
        .ret ⟨T.maxDictSize, dropTo List.length (budget - len) T.samples,
          bytes (dropTo List.length (budget - len) T.samples)⟩ := by
  rintro ⟨max, samples, totalBytes⟩ htotal hlt
  dsimp only at htotal hlt ⊢
  subst htotal
  induction samples with
  | nil =>
    have hstop : evictStep t checks budget len ⟨max, [], bytes []⟩ = .ret (.done ⟨max, [], 0⟩) := by
      rw [evictStep, Run.addWith_eq hlt, Run.ret_bind, if_neg fun h => h.2 rfl]
      rfl
    rw [List.length_nil, Run.loop_done hstop]
    rfl
  | cons front samples ih =>
    have hsum : bytes (front :: samples) = front.length + bytes samples := total_cons ..
    by_cases h : bytes (front :: samples) ≤ budget - len
    · have hstop : evictStep t checks budget len ⟨max, front :: samples, bytes (front :: samples)⟩ =
          .ret (.done ⟨max, front :: samples, bytes (front :: samples)⟩) := by
        rw [evictStep, Run.addWith_eq hlt, Run.ret_bind,
          if_neg fun hc => absurd hc.1 (by omega)]
        rfl
      rw [List.length_cons, Run.loop_done hstop, dropTo_of_le h]
    · have hnext : evictStep t checks budget len ⟨max, front :: samples, bytes (front :: samples)⟩ =
          .ret (.next ⟨max, samples, bytes samples⟩) := by
        rw [evictStep, Run.addWith_eq hlt, Run.ret_bind,
          if_pos ⟨by omega, List.cons_ne_nil _ _⟩]
        dsimp only
        rw [List.head?_cons, Run.unwrap_some, Run.ret_bind, Run.subWith_eq (by omega), Run.ret_bind,
          hsum, Nat.add_sub_cancel_left, List.tail_cons]
        rfl
      rw [List.length_cons, Run.loop_next hnext, ih (by omega), dropTo_of_lt (Nat.not_le.mp h)]

theorem modulus_large (t : Target) : 2 ^ 32 ≤ t.modulus := by
  rcases t.modulus_cases with h | h <;> rw [h] <;> decide

theorem accepted_concat (M : Nat) (added : List (List UInt8)) (data : List UInt8) :
    accepted M (added ++ [data]) = accepted M added ++
      if MINMATCH ≤ data.length ∧ data.length ≤ M then [data] else [] := by
  rw [accepted, List.filter_append, accepted, List.filter_cons, List.filter_nil]
  simp only [decide_eq_true_eq]

variable (t checks) in
/-- One call. -/
theorem addSample_retains {added : List (List UInt8)} {T : DictTrainer} (hM : M ≤ MAX_DISTANCE)
    (h : Retains M added T) (data : List UInt8) :
    ∃ T', addSample t checks data T = .ret T' ∧ Retains M (added ++ [data]) T' := by
  have hmod := modulus_large t
  have hM : M ≤ 65535 := hM
  have hmax := h.maxDictSize
  have hle : bytes T.samples ≤ 8 * M := h.samples.le
  have htotal := h.totalBytes
  by_cases hd : MINMATCH ≤ data.length ∧ data.length ≤ M
  · have hd' : 4 ≤ data.length ∧ data.length ≤ M := hd
    have hcat : accepted M (added ++ [data]) = accepted M added ++ [data] := by
      rw [accepted_concat, if_pos hd]
    have hlongest : Longest List.length (8 * M) (accepted M (added ++ [data]))
        (dropTo List.length (8 * M - data.length) T.samples ++ [data]) := by
      rw [hcat]
      exact h.samples.concat (show data.length ≤ 8 * M by omega)
    have hsum : bytes (dropTo List.length (8 * M - data.length) T.samples ++ [data]) =
        bytes (dropTo List.length (8 * M - data.length) T.samples) + data.length := by
      rw [bytes, total_append, total_cons, total_nil, Nat.add_zero]
    have hfits : bytes (dropTo List.length (8 * M - data.length) T.samples ++ [data]) ≤ 8 * M :=
      hlongest.le
    refine ⟨⟨M, _, bytes (dropTo List.length (8 * M - data.length) T.samples ++ [data])⟩, ?_, rfl,
      hlongest, rfl⟩
    have hnot : ¬ (data.length < MINMATCH ∨ data.length > T.maxDictSize) := by
      rw [hmax]
      simp only [MINMATCH]
      omega
    rw [addSample, if_neg hnot, hmax, Run.mulWith_eq (by omega), Run.ret_bind,
      evict_eq (by omega) htotal (by omega), Run.ret_bind, Nat.mul_comm M 8]
    dsimp only
    rw [Run.addWith_eq (by omega), Run.ret_bind, hsum, hmax, Run.pure_eq]
  · have hskip : data.length < MINMATCH ∨ data.length > T.maxDictSize := by
      rw [hmax]
      omega
    refine ⟨T, if_pos hskip, hmax, ?_, htotal⟩
    rw [accepted_concat, if_neg hd, List.append_nil]
    exact h.samples

theorem new_retains (n : Nat) : Retains (min n MAX_DISTANCE) [] (new n) :=
  ⟨rfl, .nil, rfl⟩

variable (t checks) in
/-- Any calls. -/
theorem Retains.addSamples {T : DictTrainer} {before : List (List UInt8)} (hM : M ≤ MAX_DISTANCE)
    (h : Retains M before T) : ∀ added : List (List UInt8),
      ∃ T', DictTrainer.addSamples t checks added T = .ret T' ∧ Retains M (before ++ added) T' := by
  intro added
  induction added generalizing before T with
  | nil => exact ⟨T, rfl, by rwa [List.append_nil]⟩
  | cons data added ih =>
    obtain ⟨T₁, h₁, hr₁⟩ := addSample_retains t checks hM h data
    obtain ⟨T₂, h₂, hr₂⟩ := ih hr₁
    refine ⟨T₂, ?_, by rwa [List.append_cons]⟩
    rw [DictTrainer.addSamples, h₁, Run.ret_bind, h₂]

/-- The samples that are retained, after any calls. -/
theorem retention (t : Target) (checks : Bool) (n : Nat) (added : List (List UInt8)) :
    ∃ T, DictTrainer.addSamples t checks added (new n) = .ret T ∧
      Longest List.length (8 * min n MAX_DISTANCE) (accepted (min n MAX_DISTANCE) added) T.samples ∧
      T.totalBytes = (T.samples.map List.length).sum := by
  obtain ⟨T, hT, h⟩ := (new_retains n).addSamples t checks (Nat.min_le_right n MAX_DISTANCE) added
  exact ⟨T, hT, h.samples, h.totalBytes⟩

/-- The size is capped: a trainer for 65536 bytes takes no sample of 65536 bytes. -/
theorem retention_capped :
    ∃ T, DictTrainer.addSamples ⟨.w64, false, false⟩ true [List.replicate 65536 0] (new 65536) =
        .ret T ∧
      ¬ Longest List.length (8 * 65536) (accepted 65536 [List.replicate 65536 0]) T.samples := by
  have hlen : (List.replicate 65536 (0 : UInt8)).length = 65536 := List.length_replicate
  have hskip : addSample ⟨.w64, false, false⟩ true (List.replicate 65536 0) (new 65536) =
      .ret (new 65536) := by
    rw [addSample, if_pos (.inr (by rw [hlen]; decide)), Run.pure_eq]
  refine ⟨new 65536, by rw [DictTrainer.addSamples, hskip, Run.ret_bind]; rfl, fun h => ?_⟩
  have hacc : accepted 65536 [List.replicate 65536 0] = [List.replicate 65536 0] := by
    rw [accepted, List.filter_cons, if_pos (by rw [hlen]; decide), List.filter_nil]
  have hfits : total List.length [List.replicate 65536 (0 : UInt8)] ≤ 8 * 65536 := by
    rw [total_cons, total_nil, hlen]
    decide
  have hle := h.maximal [List.replicate 65536 0] (by simp only [hacc, List.suffix_refl]) hfits
  exact absurd hle (by decide)

end Lz4rip.Proof.Encode
