import Lz4rip.Proof.Frame.Language

/-!
# What is wrong in a frame

Each thing that can be wrong behind a block has its own error (`Defect`), which comes after
all that is in front of it, whatever is behind (`outcome_defect`). A header that declares
another length leaves the content as it is; the length is reported at the end of the frame
(`outcome_redeclared`).
-/

namespace Lz4rip.Proof.Frame

open Lz4rip.Impl
open Proc (Rejects)
open Spec (Frame FrameText Settings Text blockLimit endBytes headerBytes)

section

variable {X : XxHash32} {S : Settings} {F : Frame} {out : Nat}

/-- What is wrong behind the blocks of `F`, where `out` bytes are given, and the error that
says so. -/
inductive Defect (X : XxHash32) (S : Settings) (F : Frame) (out : Nat) : List UInt8 → Error → Prop where
  /-- The end of a frame that declares another length. -/
  | length {size : UInt64} (hsize : F.info.contentSize = some size) (hne : F.content.length ≠ size.toNat) :
    Defect X S F out (leOfU32 0) (.contentLengthError size (.ofNat F.content.length))
  /-- The end of a frame with the checksum of another content. -/
  | contentChecksum {sum : UInt32} (hlen : checkContentLen F.info F.content.length = .ok ())
    (hc : F.info.contentChecksum = true) (hne : finish32 X (F.hash X) ≠ sum) :
    Defect X S F out (leOfU32 0 ++ leOfU32 sum) .contentChecksumError
  /-- A block that is larger than the blocks of the frame, stored or not. -/
  | tooBig {size : UInt32}
    (hsize : blockLimit F.info.blockSize < (size &&& ~~~BLOCK_UNCOMPRESSED_SIZE_BIT).toNat) :
    Defect X S F out (leOfU32 size) .blockTooBig
  /-- A stored block with the checksum of another one. -/
  | storedChecksum {data : List UInt8} {sum : UInt32} (hc : F.info.blockChecksums = true)
    (hle : data.length ≤ blockLimit F.info.blockSize) (hfits : out + data.length ≤ S.maxOutput)
    (hne : X.oneshot 0 data ≠ sum) :
    Defect X S F out (leOfU32 (.ofNat data.length ||| BLOCK_UNCOMPRESSED_SIZE_BIT) ++ (data ++ leOfU32 sum))
      .blockChecksumError
  /-- A compressed block with the checksum of another one. -/
  | checksum {data : List UInt8} {sum : UInt32} (hc : F.info.blockChecksums = true) (hnil : data ≠ [])
    (hle : data.length ≤ blockLimit F.info.blockSize) (hne : X.oneshot 0 data ≠ sum) :
    Defect X S F out (leOfU32 (.ofNat data.length) ++ (data ++ leOfU32 sum)) .blockChecksumError
  /-- A block that does not decode, or decodes to more than a block of the frame. -/
  | undecodable {data : List UInt8} (hnil : data ≠ []) (hle : data.length ≤ blockLimit F.info.blockSize)
    (h : ∀ b, Spec.decode (F.history S.dict) data = some b → blockLimit F.info.blockSize < b.length) :
    Defect X S F out (leOfU32 (.ofNat data.length) ++ (data ++ sumBytes X F.info data))
      (.decompressionError (S.why F data))

/-- Data with another checksum is refused, before anything is done with it. -/
theorem readData_rejects (hX : Spec.Lawful X) {info : FrameInfo} {data : List UInt8} {sum : UInt32}
    (hc : info.blockChecksums = true) (hne : X.oneshot 0 data ≠ sum) :
    Refused (Spec.readData X info data.length) (data ++ leOfU32 sum) .blockChecksumError := by
  refine Rejects.bind (readFull_gives rfl) (Rejects.then ?_)
  rw [Spec.verifyData, if_pos hc, ← List.append_nil (leOfU32 sum)]
  refine Rejects.bind (readChecksum_gives sum) (.ofExcept ?_)
  rw [hX.oneshot] at hne
  exact if_pos hne

theorem storedBlock_tooBig {len : Nat} (h : blockLimit F.info.blockSize < len) :
    Refused (Spec.storedBlock X S F out len) [] .blockTooBig := (Rejects.refuse h).then

theorem compressedBlock_tooBig {len : Nat} (h : blockLimit F.info.blockSize < len) :
    Refused (Spec.compressedBlock X S F out len) [] .blockTooBig := (Rejects.refuse h).then

theorem endOfFrame_rejects {tail : List UInt8} {e : Error}
    (h : Refused (Spec.endOfFrame X F) tail e) : Refused (Spec.nextBlock X S F out) (leOfU32 0 ++ tail) e := by
  have hread : BlockInfo.read (leOfU32 0) = .ok .endMark := by
    rw [blockInfo_read, if_pos rfl]
  unfold Spec.nextBlock
  exact Rejects.bind (readBlockInfo_gives hread) h.then

/-- What comes behind the size of a compressed block. -/
theorem nextBlock_compressed {data tail : List UInt8} {e : Error} (hnil : data ≠ [])
    (hle : data.length ≤ blockLimit F.info.blockSize)
    (h : Refused (Spec.compressedBlock X S F out data.length) tail e) :
    Refused (Spec.nextBlock X S F out) (leOfU32 (.ofNat data.length) ++ tail) e := by
  have hlimit := blockLimit_le F.info.blockSize
  have hpos : data.length ≠ 0 := fun hz => hnil (List.eq_nil_of_length_eq_zero hz)
  obtain ⟨htoNat, -, hread⟩ := blockInfo_read_size (n := data.length) (by omega)
  unfold Spec.nextBlock
  refine Rejects.bind (readBlockInfo_gives (hread hpos)) ?_
  show Refused (do
    let b ← Spec.compressedBlock X S F out (UInt32.ofNat data.length).toNat
    return some b) _ _
  rw [htoNat]
  exact h.then

theorem Defect.refused (hX : Spec.Lawful X) (hmax : S.maxOutput < S.target.modulus) {tail : List UInt8} {e : Error}
    (h : Defect X S F out tail e) : Refused (Spec.nextBlock X S F out) tail e := by
  have hlimit := blockLimit_le F.info.blockSize
  cases h with
  | @length size hsize hne =>
    rw [← List.append_nil (leOfU32 0)]
    refine endOfFrame_rejects (Rejects.then (.ofExcept ?_))
    rw [checkContentLen, hsize]
    exact if_pos hne
  | @contentChecksum sum hlen hc hne =>
    refine endOfFrame_rejects (Rejects.andThen (.ofExcept hlen) ?_)
    rw [if_pos hc, ← List.append_nil (leOfU32 sum)]
    exact Rejects.bind (readChecksum_gives sum) (.refuse hne)
  | @tooBig size hsize =>
    have hne : size ≠ 0 := fun hz => by
      rw [hz] at hsize
      exact absurd hsize (Nat.not_lt_zero _)
    unfold Spec.nextBlock
    rw [← List.append_nil (leOfU32 size)]
    by_cases hbit : size &&& BLOCK_UNCOMPRESSED_SIZE_BIT = 0
    · have hread : BlockInfo.read (leOfU32 size) = .ok (.compressed size) := by
        rw [blockInfo_read, if_neg hne, if_neg (not_not.mpr hbit)]
      rw [← eq_and_not hbit] at hsize
      exact Rejects.bind (readBlockInfo_gives hread) (compressedBlock_tooBig hsize).then
    · have hread : BlockInfo.read (leOfU32 size) =
          .ok (.uncompressed (size &&& ~~~BLOCK_UNCOMPRESSED_SIZE_BIT)) := by
        rw [blockInfo_read, if_neg hne, if_pos hbit]
      exact Rejects.bind (readBlockInfo_gives hread) (storedBlock_tooBig hsize).then
  | @storedChecksum data sum hc hle hfits hne =>
    obtain ⟨htoNat, hread, -⟩ := blockInfo_read_size (n := data.length) (by omega)
    unfold Spec.nextBlock
    refine Rejects.bind (readBlockInfo_gives hread) ?_
    show Refused (do
      let b ← Spec.storedBlock X S F out (UInt32.ofNat data.length).toNat
      return some b) _ _
    rw [htoNat]
    exact Rejects.then (Rejects.andThen (.refuse (Nat.not_lt_of_le hle))
      (.andThen (.ofExcept (checkOutputLen_fits hmax hfits)) (readData_rejects hX hc hne).then))
  | @checksum data sum hc hnil hle hne =>
    exact nextBlock_compressed hnil hle (Rejects.andThen (.refuse (Nat.not_lt_of_le hle))
      (readData_rejects hX hc hne).then)
  | @undecodable data hnil hle h =>
    have hdecode : Spec.decodeBlock S F data = .error (.decompressionError (S.why F data)) := by
      unfold Spec.decodeBlock
      cases hd : Spec.decode (F.history S.dict) data with
      | none => rfl
      | some b => exact if_neg (Nat.not_le_of_lt (h b hd))
    refine nextBlock_compressed hnil hle (Rejects.andThen (.refuse (Nat.not_lt_of_le hle)) ?_)
    rw [← List.append_nil (data ++ _)]
    exact Rejects.bind (readData_gives hX F.info rfl) (Rejects.ofExcept hdecode).then

end

section

variable {X : XxHash32} {t : Target} {options : FrameDecoderOptions} {content bytes more : List UInt8} {F : Frame}

/-- A decoder gives all that is in front of a defect, and then the error for it, whatever comes
behind. -/
theorem outcome_defect (hX : Spec.Lawful X) (hmax : Limited t options)
    (h : Text X (settings t options).dict (settings t options).dictId content bytes)
    (hf : FrameText X (settings t options).dict F more) (hid : F.info.dictId = (settings t options).dictId)
    (hfits : (content ++ F.content).length ≤ (settings t options).maxOutput) {tail : List UInt8} {e : Error}
    (hdefect : Defect X (settings t options) F (content ++ F.content).length tail e) (rest : List UInt8) :
    Outcome X t options (bytes ++ (more ++ (tail ++ rest))) (content ++ F.content) (some e) := by
  rw [List.length_append] at hfits hdefect
  obtain ⟨r', hnext⟩ := (hdefect.refused hX hmax) _ rest rfl
  have hstep := blockStep_error hnext
  rw [← readMoreStep_frame] at hstep
  have hreach := (Text.reads 0 hX hmax h (more ++ (tail ++ rest))).1 (by omega)
  have hframe := (FrameText.reads (0 + content.length) hX hmax hf hid (tail ++ rest)).1 (by omega)
  obtain ⟨-, blocks, hblocks, hd⟩ := hreach.trans hframe
  rw [Nat.zero_add] at hd
  have hfail := hd _ _ _ (.fail hstep)
  rw [List.append_nil] at hfail
  exact Left.outcome ⟨blocks, hfail, hblocks.symm⟩

/-- A frame with a stored block of one byte. -/
def storedByte : Frame := ⟨⟨none, none, .max64KB, .independent, false, false⟩, [[7]]⟩

theorem storedByte_text (t : Target) : FrameText Spec.xxHash32 (settings t ⟨none, none⟩).dict storedByte
    (headerBytes Spec.xxHash32 storedByte.info ++ [1, 0, 0, 0x80, 7]) := by
  have hheader : FrameText Spec.xxHash32 [] ⟨storedByte.info, []⟩ _ := .header (by decide)
  exact hheader.block (b := [7]) (by decide) .stored

/-- A block of two bytes behind it that starts with a match of nothing. -/
theorem outcome_defect_undecodable : ∃ e, Outcome Spec.xxHash32 ⟨.w64, false, false⟩ ⟨none, none⟩
    ([] ++ ((headerBytes Spec.xxHash32 storedByte.info ++ [1, 0, 0, 0x80, 7]) ++ ([2, 0, 0, 0, 0, 0] ++ [1, 2, 3])))
    ([] ++ [7]) (some (.decompressionError e)) := by
  let S := settings ⟨.w64, false, false⟩ ⟨none, none⟩
  have hnone : Spec.decode (storedByte.history S.dict) [0, 0] = none := by decide
  have hdefect : Defect Spec.xxHash32 S storedByte ([] ++ storedByte.content).length
      (leOfU32 (.ofNat [(0 : UInt8), 0].length) ++ ([0, 0] ++ [])) (.decompressionError (S.why storedByte [0, 0])) :=
    .undecodable (List.cons_ne_nil _ _) (by decide) fun b hb => by
      rw [hnone] at hb
      cases hb
  exact ⟨_, outcome_defect Spec.xxHash32_lawful (by decide) .nil (storedByte_text _) rfl (by decide) hdefect [1, 2, 3]⟩

/-- The frame with another length in its header. -/
def redeclared (F : Frame) (size : Option UInt64) : Frame := { F with info := { F.info with contentSize := size } }

/-- The header is the only place for the length. -/
theorem FrameText.redeclared {dict : List UInt8} (h : FrameText X dict F more) : ∃ blocks,
    more = headerBytes X F.info ++ blocks ∧ ∀ size : Option UInt64,
      FrameText X dict (redeclared F size) (headerBytes X (redeclared F size).info ++ blocks) := by
  induction h with
  | header hne => exact ⟨[], (List.append_nil _).symm, fun size => by
      rw [List.append_nil]
      exact .header hne⟩
  | @block f bytes b more hf hle hb ih =>
    obtain ⟨blocks, rfl, hall⟩ := ih
    refine ⟨blocks ++ more, List.append_assoc .., fun size => ?_⟩
    rw [← List.append_assoc]
    refine (hall size).block hle ?_
    cases hb with
    | stored => exact .stored
    | compressed hne hlen hdecode => exact .compressed hne hlen hdecode

/-- A frame whose header declares another length, with the same blocks and the same end: all of
it is given, and then the length is what is wrong, unless it is right. -/
theorem outcome_redeclared (hX : Spec.Lawful X) (hmax : Limited t options)
    (h : Text X (settings t options).dict (settings t options).dictId content bytes) {blocks : List UInt8}
    (hf : FrameText X (settings t options).dict F (headerBytes X F.info ++ blocks))
    (hid : F.info.dictId = (settings t options).dictId)
    (hfits : (content ++ F.content).length ≤ (settings t options).maxOutput) (size : UInt64) :
    let frame := headerBytes X (redeclared F (some size)).info ++ blocks ++ endBytes X F
    (F.content.length = size.toNat → Outcome X t options (bytes ++ frame) (content ++ F.content) none) ∧
    (F.content.length ≠ size.toNat → ∀ rest, Outcome X t options (bytes ++ (frame ++ rest))
      (content ++ F.content) (some (.contentLengthError size (.ofNat F.content.length)))) := by
  obtain ⟨blocks', heq, hall⟩ := FrameText.redeclared hf
  obtain rfl := List.append_cancel_left heq
  have hframe := hall (some size)
  refine ⟨fun hlen => ?_, fun hlen rest => ?_⟩
  · have hcheck : checkContentLen (redeclared F (some size)).info F.content.length = .ok () :=
      if_neg (not_not.mpr hlen)
    have htext := Text.frame (f := redeclared F (some size)) h hframe hid hcheck
    exact outcome_text hX hmax htext hfits
  · have houtcome := outcome_defect (F := redeclared F (some size)) hX hmax h hframe hid hfits
      (.length rfl hlen) ((if F.info.contentChecksum then leOfU32 (finish32 X (F.hash X)) else []) ++ rest)
    have hend : endBytes X F ++ rest = leOfU32 0 ++
        ((if F.info.contentChecksum then leOfU32 (finish32 X (F.hash X)) else []) ++ rest) :=
      List.append_assoc ..
    rwa [← hend, ← List.append_assoc (headerBytes X _ ++ blocks)] at houtcome

/-- One byte in a frame that declares two. -/
theorem outcome_redeclared_two : Outcome Spec.xxHash32 ⟨.w64, false, false⟩ ⟨none, none⟩
    ([] ++ ((headerBytes Spec.xxHash32 (redeclared storedByte (some 2)).info ++ [1, 0, 0, 0x80, 7] ++
      endBytes Spec.xxHash32 storedByte) ++ [])) ([] ++ [7]) (some (.contentLengthError 2 1)) :=
  (outcome_redeclared Spec.xxHash32_lawful (by decide) .nil (storedByte_text ⟨.w64, false, false⟩) rfl (by decide) 2).2
    (by decide) []

end

end Lz4rip.Proof.Frame
