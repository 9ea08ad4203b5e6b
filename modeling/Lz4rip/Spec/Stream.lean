import Lz4rip.Impl.Frame.Compress
import Lz4rip.Spec.Frame

/-!
# Streams of frames

What the frame format says of an encoder's output. A block is stored, or it is a
block of the history that is shorter (`EmitsBlock`); a frame is a header, blocks
and an end mark (`EmitsFrame`, `endBytes`); a stream is frames one after the other
(`Stream`).

`EncoderCall` is a call on an encoder. `Progress` is what a sequence of calls has
come to: the contents of the frames that it has ended, and what is written to the
frame that is open.
-/

namespace Lz4rip.Spec

open Lz4rip.Impl

section

variable (X : XxHash32) (dict : List UInt8)

/-- What `FrameInfo::write` gives. -/
def headerBytes (info : FrameInfo) : List UInt8 :=
  leOfU32 LZ4F_MAGIC_NUMBER ++ info.descriptor ++ [FrameInfo.headerChecksum X info.descriptor]

/-- A block's size, its data, and its checksum if the frame has them. -/
def blockBytes (info : FrameInfo) (size : UInt32) (data : List UInt8) : List UInt8 :=
  leOfU32 size ++ data ++ if info.blockChecksums then leOfU32 (X.oneshot 0 data) else []

/-- What the block `b` may be written as, behind the blocks of `f`. -/
inductive EmitsBlock (f : Frame) (b : List UInt8) : List UInt8 → Prop where
  | stored : EmitsBlock f b
      (blockBytes X f.info (.ofNat b.length ||| BLOCK_UNCOMPRESSED_SIZE_BIT) b)
  | compressed {data : List UInt8} (h : IsBlockOf (f.history dict) b data)
    (hlt : data.length < b.length) : EmitsBlock f b (blockBytes X f.info (.ofNat data.length) data)

/-- What a frame may be written as, up to its last block. -/
inductive EmitsFrame : Frame → List UInt8 → Prop where
  | header {info : FrameInfo} (h : info.blockSize ≠ .auto) : EmitsFrame ⟨info, []⟩ (headerBytes X info)
  | block {f : Frame} {bytes b more : List UInt8} (h : EmitsFrame f bytes) (hb : b ≠ [])
    (hle : b.length ≤ blockLimit f.info.blockSize) (he : EmitsBlock X dict f b more) :
    EmitsFrame (f.push b) (bytes ++ more)

/-- The end mark, and the checksum of the content if the frame has one. -/
def endBytes (f : Frame) : List UInt8 :=
  leOfU32 0 ++ if f.info.contentChecksum then leOfU32 (finish32 X (f.hash X)) else []

/-- Frames with the `Dict_ID` `dictId`, and what is in them. -/
inductive Stream (dictId : Option UInt32) : List UInt8 → List UInt8 → Prop where
  | nil : Stream dictId [] []
  | frame {content bytes more : List UInt8} {f : Frame} (h : Stream dictId content bytes)
    (hf : EmitsFrame X dict f more) (hid : f.info.dictId = dictId)
    (hlen : checkContentLen f.info f.content.length = .ok ()) :
    Stream dictId (content ++ f.content) (bytes ++ (more ++ endBytes X f))

end

/-! ## Calls -/

/-- A call on an encoder. -/
inductive EncoderCall where
  | write (buf : List UInt8)
  | flush
  | tryFinish
  deriving DecidableEq, Repr

namespace EncoderCall

/-- The bytes that a call writes. -/
def bytes : EncoderCall → List UInt8
  | .write buf => buf
  | .flush | .tryFinish => []

end EncoderCall

/-- What calls that succeed have come to. -/
structure Progress where
  /-- No frame has ended yet. -/
  first : Bool
  /-- What is written to the frame that is begun. -/
  opened : List UInt8
  /-- The contents of the frames that have ended. -/
  ended : List (List UInt8)
  deriving DecidableEq, Repr

namespace Progress

def start : Progress := ⟨true, [], []⟩

/-- A frame that ends with nothing in it is there if it is the first. -/
def step (p : Progress) : EncoderCall → Progress
  | .write buf => { p with opened := p.opened ++ buf }
  | .flush => p
  | .tryFinish =>
    if p.opened = [] ∧ p.first = false then p else ⟨false, [], p.ended ++ [p.opened]⟩

def after (cs : List EncoderCall) : Progress := cs.foldl step start

end Progress

section

variable {X : XxHash32}

/-- A new encoder. -/
inductive Created (X : XxHash32) (w : Writer) : FrameEncoder X → Prop where
  | new {e : FrameEncoder X} (h : FrameEncoder.new X w = .ret e) : Created X w e
  | withFrameInfo {info : FrameInfo} {e : FrameEncoder X}
    (h : FrameEncoder.withFrameInfo X info w = .ret e) : Created X w e
  | withDictionary {dict : List UInt8} {id : UInt32} {info : Option FrameInfo} {e : FrameEncoder X}
    (h : FrameEncoder.withDictionary X w dict id info = .ret e) : Created X w e

/-- Makes a call: the number of bytes that it has written. -/
def encoderCall (t : Target) : EncoderCall → Encode X Nat
  | .write buf => FrameEncoder.write t buf
  | .flush => do
    FrameEncoder.flush t
    return 0
  | .tryFinish => do
    FrameEncoder.tryFinish t
    return 0

/-- Makes calls one after the other, also after one that has failed. -/
def encoderRun (t : Target) (e : FrameEncoder X) :
    List EncoderCall → Run (List (Except Error Nat) × FrameEncoder X)
  | [] => return ([], e)
  | c :: cs => do
    let (r, e) ← encoderCall t c e
    let (rs, e) ← encoderRun t e cs
    return (r :: rs, e)

/-- A call of `io::Write`, on an encoder or on the `AutoFinishEncoder` that wraps it. -/
inductive WriteCall where
  | write (buf : List UInt8)
  | flush
  deriving DecidableEq, Repr

namespace WriteCall

def toEncoder : WriteCall → EncoderCall
  | .write buf => .write buf
  | .flush => .flush

/-- The data that calls write: up to the first flush, between flushes, and after the
last one. -/
def segments : List WriteCall → List (List UInt8)
  | [] => [[]]
  | .write buf :: cs => (buf ++ (segments cs).headD []) :: (segments cs).tail
  | .flush :: cs => [] :: segments cs

end WriteCall

def autoCall (t : Target) : WriteCall → Proc (AutoFinishEncoder X) Error Nat
  | .write buf => AutoFinishEncoder.write t buf
  | .flush => do
    AutoFinishEncoder.flush t
    return 0

/-- Makes calls on the wrapper. -/
def autoRun (t : Target) (a : AutoFinishEncoder X) :
    List WriteCall → Run (List (Except Error Nat) × AutoFinishEncoder X)
  | [] => return ([], a)
  | c :: cs => do
    let (r, a) ← autoCall t c a
    let (rs, a) ← autoRun t a cs
    return (r :: rs, a)

/-- Wraps the encoder, makes calls, and drops it: the writer that is left. -/
def autoDrop (t : Target) (e : FrameEncoder X) (cs : List WriteCall) : Run (Option Writer) := do
  let (_, a) ← autoRun t e.autoFinish cs
  AutoFinishEncoder.drop t a

end

end Lz4rip.Spec
