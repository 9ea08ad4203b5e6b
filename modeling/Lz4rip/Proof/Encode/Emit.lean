import Lz4rip.Proof.Encode.Table
import Lz4rip.Spec.Block

/-!
# Writing sequences

What the writers put in front of the rest of the buffer (`Puts`) are the bytes
of the block format: `emitSequence_ok` for a sequence, on either of its paths,
`handleLastLiterals_ok` for the last literals. `getMaximumOutputSize_ge` and
`length_sequenceBytes_le` are the bounds that the capacity test relies on.
-/

namespace Lz4rip.Proof.Encode

open Lz4rip.Impl
open Spec (extension lengthBytes token sequenceBytes lastBytes)

/-- `o'` is `o` with `bytes` written. -/
structure Puts (o : Rest) (bytes : List UInt8) (o' : Rest) : Prop where
  written : o'.written = o.written ++ bytes
  rest : o'.rest.length + bytes.length = o.rest.length

namespace Puts

variable {o o' o'' : Rest} {a b : List UInt8}

theorem refl (o : Rest) : Puts o [] o := ⟨(List.append_nil _).symm, rfl⟩

theorem trans (h : Puts o a o') (h' : Puts o' b o'') : Puts o (a ++ b) o'' := by
  refine ⟨by rw [h'.written, h.written, List.append_assoc], ?_⟩
  have := h.rest
  have := h'.rest
  rw [List.length_append]
  omega

end Puts

theorem putByte_ok {o : Rest} {b : UInt8} (h : 0 < o.rest.length) :
    (putByte o b).WP fun o' => Puts o [b] o' := by
  unfold putByte
  cases ho : o.rest with
  | nil =>
    rw [ho] at h
    exact absurd h (Nat.lt_irrefl 0)
  | cons x tail => exact ⟨rfl, by rw [ho]; rfl⟩

theorem putSlice_ok (t : Target) {o : Rest} {bytes : List UInt8}
    (h : bytes.length ≤ o.rest.length) :
    (putSlice t o bytes).WP fun o' => Puts o bytes o' := by
  have hl : (seg o.rest 0 bytes.length).length = bytes.length := length_seg (by omega)
  simp only [putSlice, Run.WP_bind, Run.WP_chunk, Run.pure_eq, Run.WP_ret]
  refine ⟨by omega, (sliceCopy_ok t.avx hl.symm).mono fun c hc => ?_⟩
  rw [hc]
  refine ⟨rfl, ?_⟩
  rw [List.length_drop]
  omega

@[simp] theorem length_extension (n : Nat) : (extension n).length = n / 255 + 1 := by
  rw [extension, List.length_append, List.length_replicate, List.length_singleton]

/-- Bytes are written one at a time, as long as there is room. -/
structure Writes {σ : Type} (put : σ → UInt8 → Run σ) (wrote : σ → List UInt8 → σ → Prop)
    (room : σ → Nat) : Prop where
  refl : ∀ {o}, 0 < room o → wrote o [] o
  trans : ∀ {o o' o'' a b}, wrote o a o' → wrote o' b o'' → wrote o (a ++ b) o''
  left : ∀ {o o' a}, wrote o a o' → room o' + a.length = room o
  put : ∀ {o} (b : UInt8), 0 < room o → (put o b).WP (wrote o [b])

/-- A loop that puts 255 as long as no less is left, and then what is left. -/
theorem Writes.integer {σ : Type} {put : σ → UInt8 → Run σ} {wrote : σ → List UInt8 → σ → Prop}
    {room : σ → Nat} (W : Writes put wrote room)
    {body : σ × Nat → Run (Run.Flow (σ × Nat) (σ × Nat))}
    (hbody : ∀ o n, body (o, n) =
      if n ≥ 0xFF then put o 0xFF >>= fun o => .ret (.next (o, n - 0xFF)) else .ret (.done (o, n)))
    {o : σ} {n : Nat} (h : n / 255 + 1 ≤ room o) :
    (Run.loop body (n + 1) (o, n)).WP fun s =>
      (put s.1 (UInt8.ofNat s.2)).WP (wrote o (extension n)) := by
  -- After `k` rounds, `k` bytes of 255 are written and `n - 255 * k` is left.
  refine Run.WP.loop (fun s => ∃ k, wrote o (List.replicate k 255) s.1 ∧ n = 255 * k + s.2)
    (fun s => s.2) (fun s hI => ?_) _ _ ⟨0, W.refl (by omega), by omega⟩ (Nat.lt_succ_self n)
  obtain ⟨o', m⟩ := s
  obtain ⟨k, hp, hn⟩ := hI
  have hr := W.left hp
  rw [List.length_replicate] at hr
  dsimp only at hn hr
  have hroom : 0 < room o' := by omega
  rw [hbody]
  refine .ite (fun hge => ?_) fun hlt => ?_
  · rw [Run.WP_bind]
    refine (W.put 255 hroom).mono fun o'' h'' => ⟨⟨k + 1, ?_, by dsimp only; omega⟩, ?_⟩
    · rw [List.replicate_succ']
      exact W.trans hp h''
    · dsimp only
      omega
  · refine (W.put _ hroom).mono fun o'' h'' => ?_
    rw [extension, show n / 255 = k by omega, show n % 255 = m by omega]
    exact W.trans hp h''

theorem putByte_writes : Writes putByte Puts fun o => o.rest.length :=
  ⟨fun _ => .refl _, Puts.trans, Puts.rest, fun _ => putByte_ok⟩

theorem putInteger_ok {o : Rest} {n : Nat} (h : n / 255 + 1 ≤ o.rest.length) :
    (putInteger o n).WP fun o' => Puts o (extension n) o' := by
  rw [putInteger, Run.WP_bind]
  exact putByte_writes.integer (fun _ _ => rfl) h

theorem length_lengthBytes (n : Nat) :
    (lengthBytes n).length = if n < 15 then 0 else (n - 15) / 255 + 1 := by
  unfold lengthBytes
  split
  · rfl
  · exact length_extension _

theorem putLength_ok {o : Rest} {n : Nat} (h : (lengthBytes n).length ≤ o.rest.length) :
    (putLength o n).WP fun o' => Puts o (lengthBytes n) o' := by
  rw [length_lengthBytes] at h
  unfold putLength
  refine .ite (fun hn => ?_) fun hn => ?_
  · rw [if_neg (by omega)] at h
    rw [lengthBytes, if_neg (by omega)]
    exact putInteger_ok h
  · rw [lengthBytes, if_pos (by omega)]
    exact .refl o

/-! ## Tokens -/

theorem shiftLeft_or {a b : Nat} (ha : a < 16) (hb : b < 16) :
    UInt8.ofNat a <<< 4 ||| UInt8.ofNat b = UInt8.ofNat (16 * a + b) := by
  have : ∀ a < 16, ∀ b < 16, UInt8.ofNat a <<< 4 ||| UInt8.ofNat b = UInt8.ofNat (16 * a + b) := by
    decide +kernel
  exact this a ha b hb

theorem tokenFromLiteral_eq (n : Nat) : tokenFromLiteral n = token n 0 := by
  unfold tokenFromLiteral token
  split
  · rw [Nat.min_eq_left (by omega), Nat.zero_min, ← shiftLeft_or (by omega) (by decide)]
    exact (UInt8.or_zero).symm
  · rw [Nat.min_eq_right (by omega)]
    rfl

theorem tokenFromLiteralAndMatchLength_eq (a b : Nat) :
    tokenFromLiteralAndMatchLength a b = token a b := by
  have h : ∀ n : Nat, (if n < 0xF then UInt8.ofNat n else 0xF) = UInt8.ofNat (min n 15) := by
    intro n
    split
    · rw [Nat.min_eq_left (by omega)]
    · rw [Nat.min_eq_right (by omega)]
      rfl
  have h' : (if a < 0xF then UInt8.ofNat a <<< 4 else 0xF0) = UInt8.ofNat (min a 15) <<< 4 := by
    split
    · rw [Nat.min_eq_left (by omega)]
    · rw [Nat.min_eq_right (by omega)]
      rfl
  rw [tokenFromLiteralAndMatchLength, h, h', shiftLeft_or (by omega) (by omega), token]

/-! ## Sequences -/

theorem handleLastLiterals_ok {t : Target} {o : Rest} {input : List UInt8} {start : Nat}
    (hs : start ≤ input.length) (h : (lastBytes (input.drop start)).length ≤ o.rest.length) :
    (handleLastLiterals t o input start).WP fun o' => Puts o (lastBytes (input.drop start)) o' := by
  have hl : (input.drop start).length = input.length - start := List.length_drop
  simp only [lastBytes, List.cons_append, List.length_cons, List.length_append] at h
  simp only [handleLastLiterals, Run.WP_bind, Run.WP_sub]
  rw [← hl]
  refine ⟨hs, (putByte_ok (by omega)).mono fun o₁ h₁ => ?_⟩
  have r₁ := h₁.rest
  rw [List.length_singleton] at r₁
  refine (putLength_ok (by omega)).mono fun o₂ h₂ => ?_
  have r₂ := h₂.rest
  refine (putSlice_ok t (by omega)).mono fun o₃ h₃ => ?_
  have := (h₁.trans h₂).trans h₃
  rwa [tokenFromLiteral_eq] at this

section

variable {t : Target} {o : Rest} {input : List UInt8} {start litLen offset matchLen : Nat}

theorem emitLongSequence_ok (hi : start + litLen ≤ input.length)
    (h : (sequenceBytes ⟨seg input start litLen, offset, 4 + matchLen⟩).length ≤ o.rest.length) :
    (emitLongSequence t o input start litLen offset matchLen).WP fun o' =>
      Puts o (sequenceBytes ⟨seg input start litLen, offset, 4 + matchLen⟩) o' := by
  have hl : (seg input start litLen).length = litLen := length_seg hi
  simp only [sequenceBytes, List.cons_append, List.length_cons, List.length_append, hl,
    length_leBytes, Nat.add_sub_cancel_left] at h ⊢
  simp only [emitLongSequence, Run.WP_bind, Run.WP_chunk]
  refine ⟨hi, (putByte_ok (by omega)).mono fun o₁ h₁ => ?_⟩
  have r₁ := h₁.rest
  rw [List.length_singleton] at r₁
  refine (putLength_ok (by omega)).mono fun o₂ h₂ => ?_
  have r₂ := h₂.rest
  refine (putSlice_ok t (by omega)).mono fun o₃ h₃ => ?_
  have r₃ := h₃.rest
  refine (putSlice_ok t (by rw [length_leBytes]; omega)).mono fun o₄ h₄ => ?_
  have r₄ := h₄.rest
  rw [length_leBytes] at r₄
  refine (putLength_ok (by omega)).mono fun o₅ h₅ => ?_
  have := (((h₁.trans h₂).trans h₃).trans h₄).trans h₅
  rwa [tokenFromLiteralAndMatchLength_eq] at this

/-- Writing 16 bytes from the literals on, and the offset over what is too
much, is writing the literals and the offset. -/
theorem emitShortSequence_ok (hlit : litLen < 15) (hmat : matchLen < 15)
    (ho : 19 ≤ o.rest.length) (hi : start + 16 ≤ input.length) :
    (emitShortSequence o (seg input start 16) litLen offset matchLen).WP fun o' =>
      Puts o (sequenceBytes ⟨seg input start litLen, offset, 4 + matchLen⟩) o' := by
  have hl : (seg input start litLen).length = litLen := length_seg (by omega)
  have h16 : (seg input start 16).length = 16 := length_seg hi
  have h2 : (leBytes 2 offset).length = 2 := length_leBytes 2 offset
  have hb : sequenceBytes ⟨seg input start litLen, offset, 4 + matchLen⟩ =
      token litLen matchLen :: seg input start litLen ++ leBytes 2 offset := by
    simp only [sequenceBytes, hl, Nat.add_sub_cancel_left, lengthBytes, if_pos hlit, if_pos hmat,
      List.append_nil, List.singleton_append]
  have htok : UInt8.ofNat litLen <<< 4 ||| UInt8.ofNat matchLen = token litLen matchLen := by
    rw [shiftLeft_or (by omega) (by omega), token, Nat.min_eq_left (by omega),
      Nat.min_eq_left (by omega)]
  simp only [emitShortSequence, Run.WP_bind, Run.WP_storeAt, Run.pure_eq, Run.WP_ret, h16, h2,
    htok, List.length_singleton]
  have l₁ : (store o.rest 0 [token litLen matchLen]).length = o.rest.length :=
    length_store (by rw [List.length_singleton]; omega)
  have l₂ : (store (store o.rest 0 [token litLen matchLen]) 1 (seg input start 16)).length =
      o.rest.length := by rw [length_store (by omega), l₁]
  refine ⟨by omega, by omega, by omega, ?_, ?_⟩
  · -- The three stores, from the last to the first.
    have t₃ := take_store (l := store (store o.rest 0 [token litLen matchLen]) 1
      (seg input start 16)) (i := 1 + litLen) (leBytes 2 offset) (by omega)
    have t₂ := take_store (l := store o.rest 0 [token litLen matchLen]) (i := 1)
      (seg input start 16) (by omega)
    have t₁ := take_store (l := o.rest) (i := 0) [token litLen matchLen] (Nat.zero_le _)
    rw [h16] at t₂
    rw [List.length_singleton, List.take_zero, List.nil_append, Nat.zero_add] at t₁
    rw [t₁] at t₂
    rw [h2, show 1 + litLen + 2 = 3 + litLen by omega] at t₃
    dsimp only
    rw [t₃, hb]
    have : (store (store o.rest 0 [token litLen matchLen]) 1 (seg input start 16)).take (1 + litLen) =
        token litLen matchLen :: seg input start litLen := by
      rw [← Nat.min_eq_left (show 1 + litLen ≤ 1 + 16 by omega), ← List.take_take, t₂,
        Nat.add_comm 1, List.singleton_append, List.take_succ_cons, take_seg _ (by omega)]
    rw [this]
  · have l₃ : (store (store (store o.rest 0 [token litLen matchLen]) 1 (seg input start 16))
        (1 + litLen) (leBytes 2 offset)).length = o.rest.length := by
      rw [length_store (by omega), l₂]
    dsimp only
    rw [List.length_drop, l₃, hb, List.length_append, List.length_cons, hl, h2]
    omega

/-- Either path writes the bytes of the sequence. -/
theorem emitSequence_ok (hi : start + litLen ≤ input.length)
    (h : (sequenceBytes ⟨seg input start litLen, offset, 4 + matchLen⟩).length ≤ o.rest.length) :
    (emitSequence t o input start litLen offset matchLen).WP fun o' =>
      Puts o (sequenceBytes ⟨seg input start litLen, offset, 4 + matchLen⟩) o' := by
  unfold emitSequence
  refine .ite (fun hs => ?_) fun _ => emitLongSequence_ok hi h
  exact emitShortSequence_ok hs.1.1 hs.1.2 hs.2.1 hs.2.2

end

/-! ## Sizes -/

/-- A sequence costs at most what it stands for and one byte in 255 literals. -/
theorem length_sequenceBytes_le {s : Spec.Sequence} (h : 4 ≤ s.matchLen) :
    (sequenceBytes s).length ≤ s.size + s.literals.length / 255 := by
  simp only [sequenceBytes, List.cons_append, List.length_cons, List.length_append, length_leBytes,
    length_lengthBytes, Lz77.Sequence.size]
  split <;> split <;> omega

theorem length_lastBytes_le (l : List UInt8) :
    (lastBytes l).length ≤ l.length + l.length / 255 + 2 := by
  simp only [lastBytes, List.cons_append, List.length_cons, List.length_append, length_lengthBytes]
  split <;> omega

/-- A buffer of the maximum output size has room for one byte in 255 and 16
more. -/
theorem getMaximumOutputSize_le {t : Target} {n m : Nat} (h : getMaximumOutputSize t n = .ret m)
    (hm : m ≤ t.isizeMax) : n + n / 255 + 16 ≤ m := by
  have hw : (getMaximumOutputSize t n).WP (· = m) := Run.WP_iff.mpr ⟨m, h, rfl⟩
  simp only [getMaximumOutputSize, Run.WP_bind, Run.WP_assert, Run.pure_eq, Run.WP_ret] at hw
  obtain ⟨-, rfl⟩ := hw
  have := t.modulus_cases
  unfold Target.usizeMax Target.isizeMax at *
  split at hm
  · omega
  · rw [if_neg ‹_›]
    omega

end Lz4rip.Proof.Encode
