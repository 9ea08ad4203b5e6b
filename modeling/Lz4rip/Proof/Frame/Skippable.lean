import Lz4rip.Proof.Frame.Language

/-!
# Skippable frames

At a skippable frame the frame decoder fails with the length of its data, and has read
nothing of the data (`readHeader_skippable`). So a caller can skip it and read on with
the same decoder: it gets what is in the frames between (`readSkipping_archive`).
-/

namespace Lz4rip.Proof.Frame

open Lz4rip.Impl
open Spec (Archive Naive Settings Text skippableFrame)

variable {X : XxHash32} {S : Settings}

theorem readSize_skippable {bytes : List UInt8} (h : bytes.length = MIN_FRAME_INFO_SIZE)
    (hm : isSkippableMagic (u32OfLe (bytes.take 4)) = true) : FrameInfo.readSize bytes = .ret (.ok 8) := by
  have h' : bytes.length = 7 := h
  rw [FrameInfo.readSize, Run.chunk_eq (by omega), Run.ret_bind, seg, List.drop_zero]
  dsimp only
  rw [if_neg (Nat.not_lt.mpr (Nat.le_of_eq h.symm)), hm, if_pos rfl]
  rfl

theorem frameInfoRead_skippable {magic len : UInt32} (hm : isSkippableMagic magic = true) :
    FrameInfo.read X (leOfU32 magic ++ leOfU32 len) = .error (.skippableFrame len) := by
  have hmagic : FrameInfo.readSlice 4 (leOfU32 magic ++ leOfU32 len) = .ok (leOfU32 magic, leOfU32 len) :=
    readSlice_iff.mpr ⟨rfl, codec32.length magic⟩
  have hlen : FrameInfo.readSlice 4 (leOfU32 len) = .ok (leOfU32 len, []) :=
    readSlice_iff.mpr ⟨(List.append_nil _).symm, codec32.length len⟩
  unfold FrameInfo.read
  rw [hmagic]
  show (if isSkippableMagic (u32OfLe (leOfU32 magic)) = true then _ else _) = _
  rw [codec32.of_to, hm, if_pos rfl, hlen]
  show Except.error (Error.skippableFrame (u32OfLe (leOfU32 len))) = _
  rw [codec32.of_to]

/-- The magic number and the length are read, and nothing behind them. -/
theorem readHeader_skippable {magic len : UInt32} (hm : isSkippableMagic magic = true)
    (rest : List UInt8) :
    readHeader X (leOfU32 magic ++ (leOfU32 len ++ rest)) = .ret (.error (.skippableFrame len), rest) := by
  have hmlen := codec32.length magic
  have hllen := codec32.length len
  have hne : leOfU32 magic ≠ [] := fun hnil => by
    rw [hnil] at hmlen
    cases hmlen
  have hfixed : ((leOfU32 len).take 3).length = MIN_FRAME_INFO_SIZE - MAGIC_NUMBER_SIZE := by
    rw [List.length_take, hllen]
    rfl
  have hlast : ((leOfU32 len).drop 3).length = 8 - MIN_FRAME_INFO_SIZE := by
    rw [List.length_drop, hllen]
    rfl
  have hsize : FrameInfo.readSize (leOfU32 magic ++ (leOfU32 len).take 3) = .ret (.ok 8) := by
    refine readSize_skippable (by rw [List.length_append, hmlen, hfixed]; rfl) ?_
    rw [← hmlen, List.take_left, codec32.of_to]
    exact hm
  rw [← List.take_append_drop 3 (leOfU32 len), List.append_assoc]
  obtain ⟨_, hmagic, rfl⟩ := readMagic_gives hmlen _
    ((leOfU32 len).take 3 ++ ((leOfU32 len).drop 3 ++ rest)) rfl
  obtain ⟨_, hread, rfl⟩ := readFull_gives hfixed _ ((leOfU32 len).drop 3 ++ rest) rfl
  obtain ⟨_, hrest, rfl⟩ := readRest_gives hlast _ rest rfl
  rw [readHeader, Proc.bind_run, hmagic, Run.ret_bind, Proc.andThen_ok, if_neg hne, Proc.bind_run, hread,
    Run.ret_bind, Proc.andThen_ok, Proc.bind_run, hsize]
  simp only [Proc.lift_run, Run.ret_bind, Proc.andThen_ok, Proc.bind_run, Proc.ofExcept_run, hrest,
    List.append_assoc, List.take_append_drop, frameInfoRead_skippable hm, Proc.andThen_error]

/-- The naive decoder fails there, and the data is what is left. -/
theorem readMoreStep_skippable {magic : UInt32} (hm : isSkippableMagic magic = true)
    (data rest : List UInt8) (out : Nat) :
    Naive.readMoreStep X S () (reading none (skippableFrame magic data ++ rest) out) =
      .ret (.error (.skippableFrame (.ofNat data.length)), reading none (data ++ rest) out) := by
  rw [skippableFrame, List.append_assoc, List.append_assoc]
  simp only [Naive.readMoreStep, Naive.openFrame, Naive.onReader, Proc.bind_run, Proc.get_run,
    Run.ret_bind, Proc.andThen_ok, readHeader_skippable hm, Proc.andThen_error]

/-- Everything in front of a skippable frame is given, and then its length. -/
theorem Text.left_skippable (hX : Spec.Lawful X) (hmax : S.maxOutput < S.target.modulus)
    {c whole : List UInt8} (data : List UInt8) {magic : UInt32} {out : Nat} (h : Text X S.dict S.dictId c whole)
    (hm : isSkippableMagic magic = true) (rest : List UInt8) (hfits : out + c.length ≤ S.maxOutput) :
    Left X S (reading none (whole ++ (skippableFrame magic data ++ rest)) out) c
      (some (.skippableFrame (.ofNat data.length))) (reading none (data ++ rest) (out + c.length)) := by
  obtain ⟨hreach, -⟩ := Text.reads out hX hmax h (skippableFrame magic data ++ rest)
  obtain ⟨-, blocks, rfl, hd⟩ := hreach hfits
  have hfail := hd _ _ _ (.fail (readMoreStep_skippable hm data rest _))
  rw [List.append_nil] at hfail
  exact ⟨blocks, hfail, rfl⟩

/-! ## The frame decoder -/

/-- The reader is replaced, and nothing else. -/
theorem replace_rep (hwhy : S.why = blockError S.target S.dict) {d : FrameDecoder X (List UInt8)}
    {s : Naive (List UInt8)} (hrep : Rep S d s) (r : List UInt8) :
    ∃ d', (Spec.frameDecoder X S.target true).call d (.replace r) = .ret (⟨[], none⟩, d') ∧
      Rep S d' { s with r } := by
  have hcall : (Spec.naive X S).call s (.replace r) = .ret (⟨[], none⟩, { s with r }) := rfl
  have hsame := call_refines true hwhy (.replace r) hrep
  rw [hcall] at hsame
  obtain ⟨⟨_, d'⟩, hd, rfl, hrep'⟩ := hsame.of_ret
  exact ⟨d', hd, hrep'⟩

theorem readSkipping_reads (hX : Spec.Lawful X) (hmax : S.maxOutput < S.target.modulus)
    (hwhy : S.why = blockError S.target S.dict) {content bytes : List UInt8}
    (h : Archive X S.dict S.dictId content bytes) :
    ∀ (n out : Nat) (d : FrameDecoder X (List UInt8)), bytes.length < n → Rep S d (reading none bytes out) →
      out + content.length ≤ S.maxOutput →
      (Spec.frameDecoder X S.target true).readSkipping FrameDecoder.r n d = .ret (content, none) := by
  induction h with
  | @text content bytes htext =>
    intro n out d hn hrep hfits
    obtain ⟨n, rfl⟩ := Nat.exists_eq_add_one_of_ne_zero (Nat.ne_zero_of_lt hn)
    obtain ⟨f, hleft⟩ := (Text.left hX hmax htext out).1 hfits
    have hread := readToEnd_left (fun e he => absurd he.symm (Option.some_ne_none e)) hleft
    obtain ⟨d₁, hcall, -⟩ := readToEnd_rep hwhy hread hrep
    rw [Spec.Calls.readSkipping, hcall]
    rfl
  | @skip c whole data content bytes magic htext hm hd hr ih =>
    intro n out d hn hrep hfits
    obtain ⟨n, rfl⟩ := Nat.exists_eq_add_one_of_ne_zero (Nat.ne_zero_of_lt hn)
    have hless : bytes.length < n := by
      have hmlen := codec32.length magic
      simp only [skippableFrame, List.length_append, hmlen] at hn
      omega
    rw [List.length_append] at hfits
    have hleft := Text.left_skippable hX hmax data htext hm bytes
      (show out + c.length ≤ S.maxOutput by omega)
    obtain ⟨d₁, hcall, hrep₁⟩ := readToEnd_rep hwhy
      (readToEnd_left (fun e he => by cases he; exact nofun) hleft) hrep
    have hdata : (UInt32.ofNat data.length).toNat = data.length := UInt32.toNat_ofNat_of_lt' hd
    have hreader : d₁.r.drop (UInt32.ofNat data.length).toNat = bytes := by
      rw [hrep₁.r, hdata, List.drop_left]
    obtain ⟨d₂, hreplace, hrep₂⟩ := replace_rep hwhy hrep₁ bytes
    have hrest := ih n (out + c.length) d₂ hless hrep₂ (by omega)
    rw [Spec.Calls.readSkipping, hcall, Run.ret_bind]
    dsimp only
    rw [hreader, hreplace, Run.ret_bind, hrest]
    rfl

/-- A caller that skips skippable frames gets what is in all the frames between them, from
one decoder. -/
theorem readSkipping_archive (hX : Spec.Lawful X) {t : Target} {options : FrameDecoderOptions}
    (hmax : Limited t options) {content bytes : List UInt8}
    (h : Archive X (settings t options).dict (settings t options).dictId content bytes)
    (hfits : content.length ≤ (settings t options).maxOutput) :
    (Spec.frameDecoder X t true).readSkipping FrameDecoder.r (bytes.length + 1)
      (FrameDecoder.withOptions X t bytes options) = .ret (content, none) :=
  readSkipping_reads hX hmax (settings_why t options) h _ 0 _ (Nat.lt_succ_self _)
    (withOptions_rep X t bytes options) (by rwa [Nat.zero_add])

/-- Two frames of one byte, and one to skip between them. -/
theorem readSkipping_archive_byteFrame :
    let t : Target := ⟨.w64, false, false⟩
    let bytes := byteFrame ++ (skippableFrame 0x184D2A50 [1, 2, 3] ++ byteFrame)
    (Spec.frameDecoder Spec.xxHash32 t true).readSkipping FrameDecoder.r (bytes.length + 1)
      (FrameDecoder.withOptions Spec.xxHash32 t bytes ⟨none, none⟩) = .ret ([7] ++ [7], none) := by
  intro t bytes
  have harchive : Archive Spec.xxHash32 [] none ([7] ++ [7]) bytes :=
    .skip byteFrame_text (by decide) (by decide) (.text byteFrame_text)
  exact readSkipping_archive Spec.xxHash32_lawful (by decide) harchive (by decide)

end Lz4rip.Proof.Frame
