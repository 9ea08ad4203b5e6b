import Lz4rip.Proof.Decode.Decompress

/-!
# Output buffers

A block that decodes into `n` bytes is refused by a smaller buffer with a size that
is larger than the buffer and no more than `n` (`decompressInto_tooSmall`), so that
growing the buffer to that size and decoding again comes to an end.

A vector that a block is appended to gets what the block decodes to in a buffer of
its own, or nothing (`decompressAppend_atomic`).
-/

namespace Lz4rip.Proof.Decode

open Lz4rip.Impl

/-! ## Buffers that are too small -/

/-- Decodes into a buffer of `c` bytes, and again into one of the size that it is
told, where that was too small. -/
def retry (run : List UInt8 → Run (Except DecompressError Nat × List UInt8)) (c : Nat) :
    Run (Run.Flow Nat (Except DecompressError Nat)) := do
  let (r, _) ← run (List.replicate c 0)
  match r with
  | .error (.outputTooSmall expected _) => return .next expected
  | r => return .done r

/-- A buffer of fewer than `n` bytes is told a size that is larger, and no more than
`n`; buffers that grow by what they are told are soon large enough. -/
def Grows (run : List UInt8 → Run (Except DecompressError Nat × List UInt8)) (n : Nat) : Prop :=
  (∀ out : List UInt8, out.length < n → ∃ e out',
    run out = .ret (.error (.outputTooSmall e out.length), out') ∧ out.length < e ∧ e ≤ n) ∧
  ∀ c ≤ n, Run.loop (retry run) (n + 1) c = .ret (.ok n)

/-- Every retry decodes into a larger buffer, up to the one that is large enough. -/
theorem retry_ok {run : List UInt8 → Run (Except DecompressError Nat × List UInt8)} {n : Nat}
    (hsmall : ∀ out : List UInt8, out.length < n → ∃ e out',
      run out = .ret (.error (.outputTooSmall e out.length), out') ∧ out.length < e ∧ e ≤ n)
    (hn : ∀ out : List UInt8, out.length = n → ∃ out', run out = .ret (.ok n, out')) {c : Nat}
    (hc : c ≤ n) : Run.loop (retry run) (n + 1) c = .ret (.ok n) := by
  have hrun : (Run.loop (retry run) (n + 1) c).WP (· = .ok n) := by
    refine Run.WP.loop (· ≤ n) (n - ·) (fun c hc => ?_) _ _ hc (by omega)
    have hlen : (List.replicate c (0 : UInt8)).length = c := List.length_replicate
    rw [retry, Run.WP_bind]
    by_cases hlt : c < n
    · obtain ⟨e, out', hx, hlo, hhi⟩ := hsmall (List.replicate c 0) (by omega)
      rw [hx]
      exact ⟨hhi, by omega⟩
    · obtain ⟨out', hx⟩ := hn (List.replicate c 0) (by omega)
      rw [hx]
      exact rfl
  obtain ⟨r, hr, rfl⟩ := Run.WP_iff.mp hrun
  exact hr

/-- Room for a block is room for less of it. -/
theorem Fits.mono {t : Target} {input : List UInt8} {cap cap' : Nat} (h : Fits t input cap)
    (hc : cap' ≤ cap) : Fits t input cap' := by
  unfold Fits at h ⊢
  omega

/-- A block that decodes into some buffer, decoded into smaller ones. -/
theorem grows_of_internal {t : Target} (useDict : Bool) {input : List UInt8} (dict : List UInt8)
    {big big' : List UInt8} {n : Nat} (h : t.Addressable [input, big])
    (hrun : (do
      let (r, sink) ← decompressInternal t useDict input ⟨big, 0⟩ dict
      return (r, sink.output)) = Run.ret ((.ok n : Except DecompressError Nat), big')) :
    Grows (fun out => do
      let (r, sink) ← decompressInternal t useDict input ⟨out, 0⟩ dict
      return (r, sink.output)) n := by
  have hf := Fits.of_addressable h
  obtain ⟨r, hr, hbig⟩ := refinesReference_of_internal useDict dict h
  obtain ⟨_, hx, -⟩ := hbig big rfl
  obtain ⟨v, hv, rfl, hle⟩ := (hr n).mp (Prod.mk.inj (Run.ret.inj (hx.symm.trans hrun))).1
  have decodes : ∀ out : List UInt8, out.length ≤ v.length → ∃ r s,
      decompressInternal t useDict input ⟨out, 0⟩ dict = .ret (r, s) ∧
        DecodesInto (history useDict dict) input ⟨out, 0⟩ r s := fun out hout => by
    obtain ⟨⟨r, s⟩, hx, hd⟩ := Run.WP_iff.mp (decompressInternal_spec useDict dict ⟨out, 0⟩
      (hf.mono (Nat.le_trans hout hle)) (Nat.zero_le _))
    exact ⟨r, s, hx, hd⟩
  rw [← List.append_nil (history useDict dict)] at hv
  have hsmall : ∀ out : List UInt8, out.length < v.length → ∃ e out', (do
      let (r, sink) ← decompressInternal t useDict input ⟨out, 0⟩ dict
      return (r, sink.output)) = Run.ret
        ((.error (.outputTooSmall e out.length) : Except DecompressError Nat), out') ∧
      out.length < e ∧ e ≤ v.length := fun out hout => by
    obtain ⟨r, s, hx, hd⟩ := decodes out (Nat.le_of_lt hout)
    obtain ⟨e, rfl, hlo, hhi⟩ := hd.tooSmall v hv (by dsimp only; omega)
    exact ⟨e, s.output, by rw [hx]; rfl, hlo, by dsimp only at hhi; omega⟩
  refine ⟨hsmall, fun c hc => retry_ok hsmall (fun out hout => ?_) hc⟩
  obtain ⟨r, s, hx, hd⟩ := decodes out (Nat.le_of_eq hout)
  obtain ⟨rfl, -⟩ := hd.ok v hv (by dsimp only; omega)
  exact ⟨s.output, by rw [hx]; rfl⟩

/-- A block that decodes into `n` bytes, given enough room, is refused by every
smaller buffer for its size, which is told a size up to `n` that is larger; and
decoding again into a buffer of that size comes to an end. -/
theorem decompressInto_tooSmall (t : Target) (input big dict : List UInt8) (n : Nat)
    (h : t.Addressable [input, big]) :
    ((∃ big', decompressIntoWithDict t input big dict = .ret (.ok n, big')) →
      Grows (fun out => decompressIntoWithDict t input out dict) n) ∧
    ((∃ big', decompressInto t input big = .ret (.ok n, big')) →
      Grows (fun out => decompressInto t input out) n) :=
  ⟨fun ⟨_, hrun⟩ => grows_of_internal true dict h hrun,
    fun ⟨_, hrun⟩ => grows_of_internal false [] h hrun⟩

/-- A literal and a match of four bytes. -/
theorem decompressInto_tooSmall_match :
    Grows (fun out => decompressIntoWithDict ⟨.w64, false, false⟩ [16, 7, 1, 0, 0] out [1, 2]) 5 ∧
      Grows (fun out => decompressInto ⟨.w64, false, false⟩ [16, 7, 1, 0, 0] out) 5 :=
  have h := decompressInto_tooSmall ⟨.w64, false, false⟩ [16, 7, 1, 0, 0] [0, 0, 0, 0, 0] [1, 2] 5
    (by decide)
  ⟨h.1 ⟨[7, 7, 7, 7, 7], by decide +kernel⟩, h.2 ⟨[7, 7, 7, 7, 7], by decide +kernel⟩⟩

/-! ## Appending to a vector -/

/-- What is appended to a vector: the decoded bytes, or nothing after an error. -/
def appended (r : Except DecompressError Nat) (decoded : List UInt8) : List UInt8 :=
  match r with
  | .ok n => decoded.take n
  | .error _ => []

/-- `append` does with any vector what `into` does with a buffer of `maxSize` bytes:
the result is the same, and the vector goes on with what is decoded. -/
def AppendsAs (t : Target) (into : Run (Except DecompressError Nat × List UInt8)) (maxSize : Nat)
    (append : List UInt8 → Run (Except DecompressError Nat × List UInt8)) : Prop :=
  ∃ r decoded, into = .ret (r, decoded) ∧ (∀ n, r = .ok n → n ≤ decoded.length) ∧
    ∀ v : List UInt8, v.length + maxSize ≤ t.isizeMax → append v = .ret (r, v ++ appended r decoded)

/-- The new bytes of the vector are the buffer that is decoded into. -/
theorem decompressAppendInternal_eq {t : Target} {useDict : Bool} {input v dict : List UInt8}
    {maxSize : Nat} {r : Except DecompressError Nat} {s : OutSink}
    (hv : v.length + maxSize ≤ t.isizeMax)
    (hx : decompressInternal t useDict input ⟨List.replicate maxSize 0, 0⟩ dict = .ret (r, s)) :
    decompressAppendInternal t useDict input v maxSize dict =
      .ret (r, v ++ appended r s.output) := by
  have hmod := t.modulus_cases
  have hadd : t.add v.length maxSize = .ret (v.length + maxSize) := if_pos (by
    unfold Target.isizeMax at hv
    omega)
  unfold decompressAppendInternal
  rw [Run.assert, if_pos hv, Run.ret_bind]
  dsimp only
  rw [hadd, Run.ret_bind, Nat.add_sub_cancel_left, List.drop_left, List.take_left, hx, Run.ret_bind]
  dsimp only
  rw [List.take_length_add_append]
  cases r with
  | ok n => rfl
  | error e => rfl

theorem appendsAs_of_internal {t : Target} (useDict : Bool) {input : List UInt8}
    (dict : List UInt8) {out : List UInt8} (h : t.Addressable [input, out]) :
    AppendsAs t (do
      let (r, sink) ← decompressInternal t useDict input ⟨out, 0⟩ dict
      return (r, sink.output)) out.length
      fun v => decompressAppendInternal t useDict input v out.length dict := by
  obtain ⟨r, hr, hrun⟩ := refinesReference_of_internal useDict dict h
  obtain ⟨out', hx, hlen, hdec⟩ := hrun out rfl
  obtain ⟨zeros, hz, hlen', hdec'⟩ := hrun (List.replicate out.length 0) List.length_replicate
  obtain ⟨⟨r', s⟩, hs, hz⟩ := Run.bind_eq_ret.mp hz
  obtain ⟨rfl, rfl⟩ := Prod.mk.inj (Run.ret.inj hz)
  have hle : ∀ n, r' = .ok n → n ≤ out.length := fun n hn => by
    obtain ⟨-, -, -, hle⟩ := (hr n).mp hn
    exact hle
  -- What is written does not depend on what the buffer held.
  have hsame : appended r' s.output = appended r' out' := by
    cases r' with
    | error e => rfl
    | ok n =>
      obtain ⟨u, hu, rfl, hle⟩ := (hr n).mp rfl
      exact (hdec' u hu hle).trans (hdec u hu hle).symm
  refine ⟨r', out', hx, fun n hn => hlen ▸ hle n hn, fun v hv => ?_⟩
  rw [← hsame]
  exact decompressAppendInternal_eq hv hs

/-- A vector that a block is appended to goes on with what the block decodes to in a
buffer of its own, and is as it was where that fails, with the same error. The
vector has no part in what is decoded. -/
theorem decompressAppend_atomic (t : Target) (input out dict : List UInt8)
    (h : t.Addressable [input, out]) :
    AppendsAs t (decompressInto t input out) out.length
      (fun v => decompressAppend t input v out.length) ∧
    AppendsAs t (decompressIntoWithDict t input out dict) out.length
      (fun v => DecompressorRef.decompressAppend ⟨dict⟩ t input v out.length) :=
  ⟨appendsAs_of_internal false [] h, appendsAs_of_internal true dict h⟩

/-- A match that reaches before the block. -/
theorem decompressAppend_atomic_outOfBounds :
    AppendsAs ⟨.w32, false, true⟩ (decompressInto ⟨.w32, false, true⟩ [0, 1, 0, 0] [0, 0, 0, 0]) 4
      (fun v => decompressAppend ⟨.w32, false, true⟩ [0, 1, 0, 0] v 4) ∧
    AppendsAs ⟨.w32, false, true⟩
      (decompressIntoWithDict ⟨.w32, false, true⟩ [0, 1, 0, 0] [0, 0, 0, 0] [9]) 4
      (fun v => DecompressorRef.decompressAppend ⟨[9]⟩ ⟨.w32, false, true⟩ [0, 1, 0, 0] v 4) :=
  decompressAppend_atomic _ _ [0, 0, 0, 0] _ (by decide)

end Lz4rip.Proof.Decode
