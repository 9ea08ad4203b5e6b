import Lz4rip.Spec.Stream

/-!
# What a stream of frames is

The frame format as a relation of bytes and what they hold, whoever wrote them. A block
is stored, or it decodes to its content behind the history (`BlockText`); a frame is a
header and blocks (`FrameText`), with an end mark behind them; a stream is frames one
after the other (`Text`). Blocks may be empty here, and need not be shorter than what
they decode to, which an encoder's blocks are (`Stream.text`).

`Archive` has skippable frames between the others. `Calls.readSkipping` reads on behind
them, as the error that they give asks its caller to.
-/

namespace Lz4rip.Spec

open Lz4rip.Impl

section

variable (X : XxHash32) (dict : List UInt8)

/-- A block that holds `b`, behind the blocks of `f`. -/
inductive BlockText (f : Frame) (b : List UInt8) : List UInt8 → Prop where
  | stored : BlockText f b
      (blockBytes X f.info (.ofNat b.length ||| BLOCK_UNCOMPRESSED_SIZE_BIT) b)
  | compressed {data : List UInt8} (hne : data ≠ [])
    (hle : data.length ≤ blockLimit f.info.blockSize) (h : decode (f.history dict) data = some b) :
    BlockText f b (blockBytes X f.info (.ofNat data.length) data)

/-- The header of a frame and its blocks, up to any of them. -/
inductive FrameText : Frame → List UInt8 → Prop where
  | header {info : FrameInfo} (h : info.blockSize ≠ .auto) : FrameText ⟨info, []⟩ (headerBytes X info)
  | block {f : Frame} {bytes b more : List UInt8} (h : FrameText f bytes)
    (hle : b.length ≤ blockLimit f.info.blockSize) (hb : BlockText X dict f b more) :
    FrameText (f.push b) (bytes ++ more)

/-- Whole frames with the `Dict_ID` `dictId`, and what is in them. -/
inductive Text (dictId : Option UInt32) : List UInt8 → List UInt8 → Prop where
  | nil : Text dictId [] []
  | frame {content bytes more : List UInt8} {f : Frame} (h : Text dictId content bytes)
    (hf : FrameText X dict f more) (hid : f.info.dictId = dictId)
    (hlen : checkContentLen f.info f.content.length = .ok ()) :
    Text dictId (content ++ f.content) (bytes ++ (more ++ endBytes X f))

end

variable {X : XxHash32} {dict : List UInt8} {dictId : Option UInt32}

/-- Frames behind frames. -/
theorem Text.append {content content' bytes bytes' : List UInt8} (h : Text X dict dictId content bytes)
    (h' : Text X dict dictId content' bytes') : Text X dict dictId (content ++ content') (bytes ++ bytes') := by
  induction h' with
  | nil => rwa [List.append_nil, List.append_nil]
  | frame _ hf hid hlen ih =>
    rw [← List.append_assoc, ← List.append_assoc]
    exact ih.frame hf hid hlen

/-! ## How much there is in bytes -/

section

variable {f : Frame} {b more : List UInt8}

theorem length_le_blockBytes (info : FrameInfo) (size : UInt32) (data : List UInt8) :
    data.length ≤ (blockBytes X info size data).length := by
  rw [blockBytes, List.length_append, List.length_append]
  omega

theorem BlockText.length_le (h : BlockText X dict f b more) : b.length ≤ 255 * more.length := by
  cases h with
  | stored =>
    have := length_le_blockBytes (X := X) f.info (.ofNat b.length ||| BLOCK_UNCOMPRESSED_SIZE_BIT) b
    omega
  | @compressed data _ _ hdecode =>
    have := length_decode_le hdecode
    have := length_le_blockBytes (X := X) f.info (.ofNat data.length) data
    omega

theorem FrameText.length_le (h : FrameText X dict f more) : f.content.length ≤ 255 * more.length := by
  induction h with
  | header => exact Nat.zero_le _
  | block _ _ hb ih =>
    have := hb.length_le
    rw [Frame.push_content, List.length_append, List.length_append]
    omega

theorem Text.length_le {content bytes : List UInt8} (h : Text X dict dictId content bytes) :
    content.length ≤ 255 * bytes.length := by
  induction h with
  | nil => exact Nat.zero_le _
  | frame _ hf _ _ ih =>
    have := hf.length_le
    simp only [List.length_append]
    omega

end

/-! ## Skippable frames -/

/-- A skippable frame: its magic number, the length of its data, and the data. -/
def skippableFrame (magic : UInt32) (data : List UInt8) : List UInt8 :=
  leOfU32 magic ++ (leOfU32 (.ofNat data.length) ++ data)

/-- Streams with skippable frames between them, and what is in the streams. -/
inductive Archive (X : XxHash32) (dict : List UInt8) (dictId : Option UInt32) :
    List UInt8 → List UInt8 → Prop where
  | text {content bytes : List UInt8} (h : Text X dict dictId content bytes) :
    Archive X dict dictId content bytes
  | skip {c whole data content bytes : List UInt8} {magic : UInt32} (h : Text X dict dictId c whole)
    (hm : isSkippableMagic magic = true) (hd : data.length < 2 ^ 32)
    (hr : Archive X dict dictId content bytes) :
    Archive X dict dictId (c ++ content) (whole ++ (skippableFrame magic data ++ bytes))

/-- Reads to the end; where that fails at a skippable frame, takes the number of bytes that
the error declares from the reader (`get_mut`) and goes on. -/
def Calls.readSkipping {σ : Type} (C : Calls σ (List UInt8)) (reader : σ → List UInt8) :
    Nat → σ → Run (List UInt8 × Option Error)
  | 0, _ => .fuel
  | n + 1, s => do
    let (reply, s) ← C.call s .readToEnd
    match reply.error with
    | some (.skippableFrame len) => do
      let (_, s) ← C.call s (.replace ((reader s).drop len.toNat))
      let (bytes, o) ← C.readSkipping reader n s
      return (reply.bytes ++ bytes, o)
    | o => return (reply.bytes, o)

/-! ## What encoders write -/

theorem EmitsBlock.text {f : Frame} {b bytes : List UInt8} (hle : b.length ≤ blockLimit f.info.blockSize)
    (h : EmitsBlock X dict f b bytes) : BlockText X dict f b bytes := by
  cases h with
  | stored => exact .stored
  | compressed h hlt => exact .compressed h.ne_nil (Nat.le_of_lt (Nat.lt_of_lt_of_le hlt hle)) h.decode

theorem EmitsFrame.text {f : Frame} {bytes : List UInt8} (h : EmitsFrame X dict f bytes) :
    FrameText X dict f bytes := by
  induction h with
  | header h => exact .header h
  | block _ _ hle he ih => exact .block ih hle (he.text hle)

/-- What an encoder writes is a stream. -/
theorem Stream.text {content bytes : List UInt8} (h : Stream X dict dictId content bytes) :
    Text X dict dictId content bytes := by
  induction h with
  | nil => exact .nil
  | frame _ hf hid hlen ih => exact .frame ih hf.text hid hlen

end Lz4rip.Spec
