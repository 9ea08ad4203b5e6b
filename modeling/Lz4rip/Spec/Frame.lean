import Lz4rip.Impl.Frame.Decompress
import Lz4rip.Spec.Block

/-!
# Decoding frames with all of the history

The naive decoder (`Naive`) keeps the content of the current frame in one piece,
block by block (`Frame`), and decodes each compressed block with the reference
decoder after the dictionary, or after the dictionary and the whole content
(`Frame.history`). It reads headers, checks checksums, lengths and the output
limit in the same places as the code does, and has the same calls.

Which error a block that does not decode is refused with is left open
(`Settings.why`): only the block decoder can tell.
-/

namespace Lz4rip.Spec

open Lz4rip.Impl

/-- An open frame: its header, and what its blocks have decoded to. -/
structure Frame where
  info : FrameInfo
  blocks : List (List UInt8)
  deriving DecidableEq, Repr

/-- The size of a block, `0` where the code has none. -/
def blockLimit : BlockSize → Nat
  | .auto => 0
  | .max64KB => 64 * 1024
  | .max256KB => 256 * 1024
  | .max1MB => 1024 * 1024
  | .max4MB => 4 * 1024 * 1024

namespace Frame

def content (f : Frame) : List UInt8 := f.blocks.flatten

def push (f : Frame) (b : List UInt8) : Frame := { f with blocks := f.blocks ++ [b] }

/-- What a block of the frame is decoded after. -/
def history (dict : List UInt8) (f : Frame) : List UInt8 :=
  match f.info.blockMode with
  | .independent => dict
  | .linked => dict ++ f.content

/-- The hash of the content, written block by block. -/
def hash (X : XxHash32) (f : Frame) : X.State := f.blocks.foldl X.write (X.withSeed 0)

@[simp] theorem push_info (f : Frame) (b : List UInt8) : (f.push b).info = f.info := rfl

@[simp] theorem push_content (f : Frame) (b : List UInt8) : (f.push b).content = f.content ++ b := by
  simp [push, content]

@[simp] theorem push_hash (X : XxHash32) (f : Frame) (b : List UInt8) :
    (f.push b).hash X = X.write (f.hash X) b := by
  simp [push, hash]

end Frame

/-- What a decoder is set up with, and why a block is refused. -/
structure Settings where
  target : Target
  dict : List UInt8
  dictId : Option UInt32
  maxOutput : Nat
  why : Frame → List UInt8 → DecompressError

/-- The naive decoder: the reader, the open frame, what is decoded and not yet
consumed, and how much it has decoded in all. -/
structure Naive (ρ : Type) where
  r : ρ
  frame : Option Frame
  pending : List UInt8
  output : Nat

section

variable {ρ : Type} [Read ρ] (X : XxHash32) (S : Settings)

/-- What a compressed block decodes to. -/
def decodeBlock (f : Frame) (data : List UInt8) : Except Error (List UInt8) :=
  match decode (f.history S.dict) data with
  | some b =>
    if b.length ≤ blockLimit f.info.blockSize then .ok b
    else .error (.decompressionError (S.why f data))
  | none => .error (.decompressionError (S.why f data))

/-- The checksum of a block, if the frame has them. -/
def verifyData (info : FrameInfo) (data : List UInt8) : Reads ρ Unit :=
  if info.blockChecksums then do
    let expected ← readChecksum
    Proc.ofExcept (checkBlockChecksum X data expected)
  else pure ()

/-- The bytes of a block, and its checksum. -/
def readData (info : FrameInfo) (len : Nat) : Reads ρ (List UInt8) := do
  let data ← readFull len
  verifyData X info data
  return data

/-- A stored block, and the output with it. -/
def storedBlock (f : Frame) (output len : Nat) : Reads ρ (List UInt8 × Nat) := do
  Proc.refuse (len > blockLimit f.info.blockSize) .blockTooBig
  let output ← Proc.ofExcept (checkOutputLen S.target S.maxOutput output len)
  let b ← readData X f.info len
  return (b, output)

/-- A compressed block, and the output with it. -/
def compressedBlock (f : Frame) (output len : Nat) : Reads ρ (List UInt8 × Nat) := do
  Proc.refuse (len > blockLimit f.info.blockSize) .blockTooBig
  let data ← readData X f.info len
  let b ← Proc.ofExcept (decodeBlock S f data)
  let output ← Proc.ofExcept (checkOutputLen S.target S.maxOutput output b.length)
  return (b, output)

/-- The end of a frame. -/
def endOfFrame (f : Frame) : Reads ρ Unit := do
  Proc.ofExcept (checkContentLen f.info f.content.length)
  if f.info.contentChecksum then do
    let expected ← readChecksum
    Proc.refuse (finish32 X (f.hash X) ≠ expected) .contentChecksumError
  else pure ()

/-- The next block of a frame and the output with it, or nothing at the end of
the frame. -/
def nextBlock (f : Frame) (output : Nat) : Reads ρ (Option (List UInt8 × Nat)) := do
  match ← readBlockInfo with
  | .endMark => do
    endOfFrame X f
    return none
  | .uncompressed len => do
    let b ← storedBlock X S f output len.toNat
    return some b
  | .compressed len => do
    let b ← compressedBlock X S f output len.toNat
    return some b

end

namespace Naive

section

variable {ρ : Type} [Read ρ] (X : XxHash32) (S : Settings)

def start (r : ρ) : Naive ρ := ⟨r, none, [], 0⟩

/-- Code on the reader. -/
def onReader {α : Type} (x : Reads ρ α) : Proc (Naive ρ) Error α := fun s =>
  x s.r >>= fun (res, r) => .ret (res, { s with r })

/-- The open frame, or the next one; nothing at the end of the stream. -/
def openFrame : Proc (Naive ρ) Error (Option Frame) := do
  let s ← Proc.get
  match s.frame with
  | some f => return some f
  | none =>
    match ← onReader (readHeader X) with
    | none => return none
    | some (info, _) => do
      Proc.ofExcept (checkDictId info.dictId S.dictId)
      Proc.modify fun s => { s with frame := some ⟨info, []⟩ }
      return some ⟨info, []⟩

/-- Reads one block of the frame, or its end. -/
def blockStep (f : Frame) : Proc (Naive ρ) Error (Run.Flow Unit Nat) := do
  let s ← Proc.get
  match ← Proc.attempt (onReader (nextBlock X S f s.output)) with
  | .error e => do
    Proc.modify fun s => { s with frame := none }
    Proc.throw e
  | .ok none => do
    Proc.modify fun s => { s with frame := none }
    return .next ()
  | .ok (some (b, output)) => do
    Proc.modify fun s => { s with frame := some (f.push b), pending := b, output }
    if b.length ≠ 0 then return .done b.length else return .next ()

def readMoreStep (_ : Unit) : Proc (Naive ρ) Error (Run.Flow Unit Nat) := do
  match ← openFrame X S with
  | none => return .done 0
  | some f => blockStep X S f

/-- Reads up to the next block that is not empty: its length, `0` at the end of
the stream. -/
def readMore : Proc (Naive ρ) Error Nat := do
  let s ← Proc.get
  Proc.loop (readMoreStep X S) (Read.left s.r + 1) ()

def read (len : Nat) : Proc (Naive ρ) Error (List UInt8) :=
  Proc.loop (fun _ => do
    let s ← Proc.get
    if s.pending ≠ [] then do
      Proc.modify fun s => { s with pending := s.pending.drop len }
      return .done (s.pending.take len)
    else do
      let read ← readMore X S
      if read = 0 then return .done [] else return .next ()) 2 ()

def fillBuf : Proc (Naive ρ) Error (List UInt8) := do
  let s ← Proc.get
  if s.pending = [] then do
    let _ ← readMore X S
    return (← Proc.get).pending
  else return s.pending

def consume (amt : Nat) : Proc (Naive ρ) Error Unit := do
  let s ← Proc.get
  Proc.lift (Run.assert (amt ≤ s.pending.length))
  Proc.modify fun s => { s with pending := s.pending.drop amt }

def readToEndStep (buf : List UInt8) :
    Proc (Naive ρ) Error (Run.Flow (List UInt8) (List UInt8 × Except Error Nat)) := do
  match ← Proc.attempt (fillBuf X S) with
  | .ok [] => return .done (buf, .ok buf.length)
  | .error e => if e.kind = .interrupted then return .next buf else return .done (buf, .error e)
  | .ok (b :: bs) => do
    consume (b :: bs).length
    return .next (buf ++ b :: bs)

def readToEnd : Proc (Naive ρ) Error (List UInt8 × Except Error Nat) := do
  let s ← Proc.get
  Proc.loop (readToEndStep X S) (Read.left s.r + 2) []

end

end Naive

/-! ## Calls -/

/-- A call on a decoder: of `Read`, of `BufRead`, or to replace the reader
through `get_mut`. -/
inductive Call (ρ : Type) where
  | read (len : Nat)
  | fillBuf
  | consume (amt : Nat)
  | readToEnd
  | replace (r : ρ)

/-- The call reads on, with a buffer that is not empty. -/
def Call.reads {ρ : Type} : Call ρ → Bool
  | .read len => len != 0
  | .replace _ => false
  | .fillBuf | .consume _ | .readToEnd => true

/-- What a call gives: bytes, and an error if it fails. `read_to_end` can give
both. -/
structure Reply where
  bytes : List UInt8
  error : Option Error
  deriving DecidableEq, Repr

/-- The call was interrupted, and can be made again. -/
def Reply.interrupted (r : Reply) : Bool := r.error.any fun e => decide (e.kind = .interrupted)

/-- The calls of a decoder with the state `σ`. -/
structure Calls (σ ρ : Type) where
  read : Nat → Proc σ Error (List UInt8)
  fillBuf : Proc σ Error (List UInt8)
  consume : Nat → Proc σ Error Unit
  readToEnd : Proc σ Error (List UInt8 × Except Error Nat)
  replace : ρ → σ → σ
  /-- What is decoded and not yet consumed. -/
  pending : σ → List UInt8

namespace Calls

variable {σ ρ : Type}

def reply : Except Error (List UInt8) → Reply
  | .ok bytes => ⟨bytes, none⟩
  | .error e => ⟨[], some e⟩

/-- Makes a call. -/
def call (C : Calls σ ρ) (s : σ) : Call ρ → Run (Reply × σ)
  | .read len => do
    let (r, s) ← C.read len s
    return (reply r, s)
  | .fillBuf => do
    let (r, s) ← C.fillBuf s
    return (reply r, s)
  | .consume amt => do
    let (r, s) ← C.consume amt s
    return (reply (r.map fun _ => []), s)
  | .readToEnd => do
    let (r, s) ← C.readToEnd s
    match r with
    | .ok (bytes, .ok _) => return (⟨bytes, none⟩, s)
    | .ok (bytes, .error e) => return (⟨bytes, some e⟩, s)
    | .error e => return (⟨[], some e⟩, s)
  | .replace r => return (⟨[], none⟩, C.replace r s)

/-- Makes calls one after the other. -/
def run (C : Calls σ ρ) (s : σ) : List (Call ρ) → Run (List Reply × σ)
  | [] => return ([], s)
  | c :: cs => do
    let (r, s) ← C.call s c
    let (rs, s) ← C.run s cs
    return (r :: rs, s)

/-- What the calls give. -/
def replies (C : Calls σ ρ) (s : σ) (cs : List (Call ρ)) : Run (List Reply) := do
  let (rs, _) ← C.run s cs
  return rs

/-- The call says that the stream has ended, or that it is broken. -/
def ends : Call ρ → Reply → Bool
  | .read len, r => r.error.isSome || (len != 0 && r.bytes.isEmpty)
  | .fillBuf, r => r.error.isSome || r.bytes.isEmpty
  | .consume _, _ => false
  | .readToEnd, _ => true
  | .replace _, _ => false

/-- The bytes that a call on the state `s` takes out of the decoder. -/
def taken (C : Calls σ ρ) (s : σ) : Call ρ → Reply → List UInt8
  | .read _, r => r.bytes
  | .fillBuf, _ => []
  | .consume amt, _ => (C.pending s).take amt
  | .readToEnd, r => r.bytes
  | .replace _, _ => []

/-- Makes calls up to the first that ends the stream: the bytes that they have
taken, and how the stream ended, if it did. -/
def session (C : Calls σ ρ) (s : σ) : List (Call ρ) → Run (List UInt8 × Option (Option Error))
  | [] => return ([], none)
  | c :: cs => do
    let (r, s') ← C.call s c
    if ends c r then return (C.taken s c r, some r.error)
    else
      let (bytes, o) ← C.session s' cs
      return (C.taken s c r ++ bytes, o)

/-- Makes calls up to the first that ends the stream, and goes on after calls that were
interrupted. -/
def persist (C : Calls σ ρ) (s : σ) : List (Call ρ) → Run (List UInt8 × Option (Option Error))
  | [] => return ([], none)
  | c :: cs => do
    let (r, s') ← C.call s c
    if ends c r && !r.interrupted then return (C.taken s c r, some r.error)
    else
      let (bytes, o) ← C.persist s' cs
      return (C.taken s c r ++ bytes, o)

/-- Makes calls one after the other: the bytes that they have taken. -/
def deliver (C : Calls σ ρ) (s : σ) : List (Call ρ) → Run (List UInt8 × σ)
  | [] => return ([], s)
  | c :: cs => do
    let (r, s') ← C.call s c
    let (bytes, s'') ← C.deliver s' cs
    return (C.taken s c r ++ bytes, s'')

/-- Reading block by block from `s` on gives the blocks `bs`, and then the end of
the stream or an error. -/
inductive Blocks (C : Calls σ ρ) : σ → List (List UInt8) → Option Error → Prop where
  | stop {s s' : σ} (h : C.call s .fillBuf = .ret (⟨[], none⟩, s')) : Blocks C s [] none
  | fail {s s' : σ} {e : Error} (h : C.call s .fillBuf = .ret (⟨[], some e⟩, s')) :
    Blocks C s [] (some e)
  | block {s s₁ s₂ : σ} {b : List UInt8} {r : Reply} {bs : List (List UInt8)} {o : Option Error}
    (h : C.call s .fillBuf = .ret (⟨b, none⟩, s₁)) (hb : b ≠ [])
    (hc : C.call s₁ (.consume b.length) = .ret (r, s₂)) (hbs : Blocks C s₂ bs o) :
    Blocks C s (b :: bs) o

/-- No call consumes more than there is. -/
def Proper (C : Calls σ ρ) (s : σ) : List (Call ρ) → Prop
  | [] => True
  | c :: cs => (∀ amt, c = .consume amt → amt ≤ (C.pending s).length) ∧
      ∀ r s', C.call s c = .ret (r, s') → C.Proper s' cs

end Calls

/-- The calls of the naive decoder. -/
def naive {ρ : Type} [Read ρ] (X : XxHash32) (S : Settings) : Calls (Naive ρ) ρ where
  read := Naive.read X S
  fillBuf := Naive.fillBuf X S
  consume := Naive.consume
  readToEnd := Naive.readToEnd X S
  replace r s := { s with r }
  pending s := s.pending

/-- The calls of `FrameDecoder`. -/
def frameDecoder {ρ : Type} [Read ρ] (X : XxHash32) (t : Target) (limited : Bool) :
    Calls (FrameDecoder X ρ) ρ where
  read := FrameDecoder.read t limited
  fillBuf := FrameDecoder.fillBuf t limited
  consume := FrameDecoder.consume
  readToEnd := FrameDecoder.readToEnd t limited
  replace r d := { d with r }
  pending d := seg d.dst d.dstStart (d.dstEnd - d.dstStart)

end Lz4rip.Spec
