import Lz4rip.Impl.Encode.Compressor
import Lz4rip.Impl.Frame.Decompress

/-!
# `frame/compress.rs`: `FrameEncoder` and `AutoFinishEncoder`

The writer is a `Writer`. A debug assertion, or an arithmetic overflow, is a
panic.
-/

namespace Lz4rip.Impl

/-- `vec_sink_for_compression`: the vector, and the sink over what is behind
`offset`. -/
def vecSinkForCompression (vec : Vec) (offset pos requiredCapacity : Nat) : Run (Vec × SliceSink) := do
  let vec := vec.resize (offset + requiredCapacity)
  Run.assert (offset ≤ vec.data.length)
  return (vec, ← SliceSink.new (vec.data.drop offset) pos)

/-- `vec_copy_overwriting`. -/
def vecCopyOverwriting (target : Vec) (targetStart : Nat) (src : List UInt8) : Run Vec := do
  Run.assert (targetStart + src.length ≤ target.capacity)
  let overwriteLen := min (← Run.sub target.data.length targetStart) src.length
  let data ← Run.storeAt target.data targetStart (src.take overwriteLen)
  return { target with data }.extend (src.drop overwriteLen)

structure FrameEncoder (X : XxHash32) where
  src : Vec
  srcStart : Nat
  srcEnd : Nat
  extDictOffset : Nat
  extDictLen : Nat
  srcStreamOffset : Nat
  compressionTable : HashTableU32 DEFAULT_NODICT_ENTRIES
  w : Writer
  contentHasher : X.State
  contentLen : Nat
  dst : Vec
  isFrameOpen : Bool
  failed : Bool
  dataToFrameWritten : Bool
  frameInfo : FrameInfo
  dict : List UInt8

/-- Code on the encoder. -/
abbrev Encode (X : XxHash32) (α : Type) := Proc (FrameEncoder X) Error α

namespace FrameEncoder

variable {X : XxHash32}

def withFrameInfo (X : XxHash32) (frameInfo : FrameInfo) (wtr : Writer) : Run (FrameEncoder X) := do
  return {
    src := .new, w := wtr, compressionTable := ← HashTable.new 32 DEFAULT_NODICT_ENTRIES
    contentHasher := X.withSeed 0, contentLen := 0, dst := .new, isFrameOpen := false, failed := false
    dataToFrameWritten := false, frameInfo, srcStart := 0, srcEnd := 0, extDictOffset := 0
    extDictLen := 0, srcStreamOffset := 0, dict := [] }

def new (X : XxHash32) (wtr : Writer) : Run (FrameEncoder X) := withFrameInfo X .default wtr

def withDictionary (X : XxHash32) (wtr : Writer) (dict : List UInt8) (dictId : UInt32)
    (frameInfo : Option FrameInfo) : Run (FrameEncoder X) := do
  let frameInfo := frameInfo.getD .default
  let enc ← withFrameInfo X { frameInfo with dictId := some dictId } wtr
  return { enc with dict }

/-- `write_all` on `self.w`. -/
def writeAll (buf : List UInt8) : Encode X Unit := fun e =>
  let (r, w) := e.w.writeAll buf
  .ret (r.mapError .ioError, { e with w })

/-- `self.w.flush()`. -/
def flushWriter : Encode X Unit := fun e =>
  let (r, w) := e.w.flush
  .ret (r.mapError .ioError, { e with w })

/-- The size of the source buffer. -/
def srcSize (blockMode : BlockMode) (maxBlockSize : Nat) : Nat :=
  if blockMode = .linked then maxBlockSize * 2 + WINDOW_SIZE else maxBlockSize

def init (t : Target) : Encode X Unit := do
  let e ← Proc.get
  let maxBlockSize ← Proc.lift e.frameInfo.blockSize.getSize
  let srcSize := srcSize e.frameInfo.blockMode maxBlockSize
  let dstSize ← Proc.lift (getMaximumOutputSize t maxBlockSize)
  Proc.modify fun e => { e with
    src := e.src.reserve (srcSize - e.src.capacity), dst := e.dst.reserve (dstSize - e.dst.capacity) }

def endFrame : Encode X Unit := do
  let e ← Proc.get
  Proc.lift (Run.assert e.isFrameOpen)
  Proc.ofExcept (checkContentLen e.frameInfo e.contentLen)
  let blockInfoBuffer ← Proc.ofExcept (BlockInfo.write .endMark)
  writeAll blockInfoBuffer
  if e.frameInfo.contentChecksum then
    writeAll (leOfU32 (finish32 X e.contentHasher))
  else pure ()
  Proc.modify fun e => { e with isFrameOpen := false }

/-- The stream offset moves by `delta`: `add_stream_offset` on 32-bit targets. -/
def addStreamOffset (t : Target) (delta : Nat) : Encode X Unit := do
  let e ← Proc.get
  match t.width with
  | .w32 =>
    if e.srcStreamOffset + delta < t.modulus then
      Proc.modify fun e => { e with srcStreamOffset := e.srcStreamOffset + delta }
    else Proc.throw (.compressionError .inputTooLarge)
  | .w64 => do
    let srcStreamOffset ← Proc.lift (t.add e.srcStreamOffset delta)
    Proc.modify fun e => { e with srcStreamOffset }

def beginFrame (t : Target) (bufLen : Nat) : Encode X Unit := do
  Proc.modify fun e =>
    if e.frameInfo.blockSize = .auto then
      { e with frameInfo := { e.frameInfo with blockSize := .fromBufLength bufLen } }
    else e
  init t
  let e ← Proc.get
  let (size, frameInfoBuffer) ← Proc.lift (e.frameInfo.write X (List.replicate MAX_FRAME_INFO_SIZE 0))
  let size ← Proc.ofExcept size
  writeAll (← Proc.lift (Run.chunk frameInfoBuffer 0 size))
  let e ← Proc.get
  if e.contentLen ≠ 0 then
    Proc.modify fun e => { e with
      contentLen := 0, srcStreamOffset := 0, src := e.src.clear, srcStart := 0, srcEnd := 0
      extDictLen := 0, contentHasher := X.withSeed 0, compressionTable := e.compressionTable.clear }
  else pure ()
  Proc.modify fun e => { e with isFrameOpen := true }

/-- `u32::MAX / 2`. -/
abbrev REPOSITION_THRESHOLD : Nat := 2 ^ 31 - 1

def shouldReposition (t : Target) (srcStreamOffset maxBlockSize : Nat) : Run Bool :=
  match t.width with
  | .w32 => return decide (srcStreamOffset ≥ REPOSITION_THRESHOLD - (maxBlockSize + WINDOW_SIZE))
  | .w64 => do
    let reach ← t.add (← t.add srcStreamOffset maxBlockSize) WINDOW_SIZE
    return decide (reach ≥ REPOSITION_THRESHOLD)

/-- The table's positions are counted anew, from the external dictionary on, when
they come near to the limit. -/
def repositionTable (t : Target) (maxBlockSize : Nat) : Encode X Unit := do
  let e ← Proc.get
  if ← Proc.lift (shouldReposition t e.srcStreamOffset maxBlockSize) then do
    let offset ← Proc.lift (Run.sub e.srcStreamOffset e.extDictLen)
    Proc.modify fun e => { e with
      compressionTable := e.compressionTable.reposition (offset % 2 ^ 32)
      srcStreamOffset := e.extDictLen }
  else pure ()

/-- `compress_result`, of `src = input[src_start..]`. -/
def compressSrc (t : Target) (input src : List UInt8) : Encode X (Except CompressError Nat) := do
  let e ← Proc.get
  let dstRequiredSize ← Proc.lift (getMaximumOutputSize t src.length)
  if e.dict ≠ [] ∧ (e.frameInfo.blockMode = .independent ∨ e.contentLen = 0) then do
    Proc.lift (Run.assert (e.extDictLen = 0))
    let (dst, sink) ← Proc.lift (vecSinkForCompression e.dst 0 0 dstRequiredSize)
    let (res, sink) ← Proc.lift (compressIntoSinkWithDict t true src sink e.dict)
    Proc.modify fun e => { e with dst := { dst with data := sink.output } }
    return res
  else if e.extDictLen ≠ 0 then do
    Proc.lift (Run.assert (e.frameInfo.blockMode = .linked))
    let (dst, sink) ← Proc.lift (vecSinkForCompression e.dst 0 0 dstRequiredSize)
    let extDict ← Proc.lift (Run.chunk e.src.data e.extDictOffset e.extDictLen)
    let (res, sink, compressionTable) ← Proc.lift (compressIntoSinkWithTable t true true false input
      e.srcStart sink e.compressionTable extDict e.srcStreamOffset)
    Proc.modify fun e => { e with dst := { dst with data := sink.output }, compressionTable }
    return res
  else do
    let (dst, sink) ← Proc.lift (vecSinkForCompression e.dst 0 0 dstRequiredSize)
    let (res, sink, compressionTable) ← Proc.lift (compressIntoSinkWithTable t false true false input
      e.srcStart sink e.compressionTable [] e.srcStreamOffset)
    Proc.modify fun e => { e with dst := { dst with data := sink.output }, compressionTable }
    return res

/-- `(block_info, block_data)`: the compressed bytes, or `src` where they are not
less. -/
def blockData (res : Except CompressError Nat) (dst src : List UInt8) :
    Run (Except Error (BlockInfo × List UInt8)) :=
  match res with
  | .error e => return .error (.compressionError e)
  | .ok compLen =>
    if compLen < src.length then do
      let data ← Run.chunk dst 0 compLen
      return .ok (.compressed (.ofNat compLen), data)
    else return .ok (.uncompressed (.ofNat src.length), src)

/-- The first block of a linked frame with a dictionary is not in the table yet. -/
def seedTable (t : Target) (src : List UInt8) : Encode X Unit := do
  let e ← Proc.get
  if e.frameInfo.blockMode = .linked ∧ e.dict ≠ [] ∧ e.contentLen = 0 then do
    let compressionTable ← Proc.lift (seedTableWithInput t e.compressionTable src e.srcStreamOffset)
    Proc.modify fun e => { e with compressionTable }
  else pure ()

/-- The block, with its size and its checksum. -/
def emitBlock (blockInfo : BlockInfo) (blockData : List UInt8) : Encode X Unit := do
  let blockInfoBuffer ← Proc.ofExcept blockInfo.write
  writeAll blockInfoBuffer
  writeAll blockData
  let e ← Proc.get
  if e.frameInfo.blockChecksums then
    writeAll (leOfU32 (X.oneshot 0 blockData))
  else pure ()

/-- Where the next block starts, and its history. -/
def slideSource (t : Target) (maxBlockSize len : Nat) : Encode X Unit := do
  let e ← Proc.get
  if e.frameInfo.blockMode = .linked then do
    Proc.lift (Run.assert (e.src.capacity = maxBlockSize * 2 + WINDOW_SIZE))
    if e.srcStart ≥ maxBlockSize + WINDOW_SIZE then do
      let extDictOffset ← Proc.lift (Run.sub e.srcEnd WINDOW_SIZE)
      Proc.modify fun e => { e with extDictOffset, extDictLen := WINDOW_SIZE }
      addStreamOffset t e.srcEnd
      Proc.modify fun e => { e with srcStart := 0, srcEnd := 0 }
    else if e.srcStart + e.extDictLen > WINDOW_SIZE then do
      let delta := min e.extDictLen (e.srcStart + e.extDictLen - WINDOW_SIZE)
      Proc.modify fun e => { e with
        extDictOffset := e.extDictOffset + delta, extDictLen := e.extDictLen - delta }
      let e ← Proc.get
      Proc.lift (Run.assert (e.srcStart + e.extDictLen ≥ WINDOW_SIZE))
    else pure ()
    let e ← Proc.get
    Proc.lift (Run.assert (e.extDictLen = 0 ∨ e.srcStart + maxBlockSize ≤ e.extDictOffset))
  else do
    Proc.lift (Run.assert (e.extDictLen = 0))
    Proc.lift (Run.assert (e.src.capacity = maxBlockSize))
    Proc.modify fun e => { e with srcStart := 0, srcEnd := 0 }
    addStreamOffset t len

/-- `self.src[..self.src_end]`, and what of it is from `self.src_start` on. -/
def sourceBlock (e : FrameEncoder X) : Run (List UInt8 × List UInt8) := do
  let input ← Run.chunk e.src.data 0 e.srcEnd
  let src ← Run.chunk input e.srcStart (← Run.sub input.length e.srcStart)
  return (input, src)

def writeBlock (t : Target) : Encode X Unit := do
  let e ← Proc.get
  Proc.lift (Run.assert e.isFrameOpen)
  let maxBlockSize ← Proc.lift e.frameInfo.blockSize.getSize
  Proc.lift (do Run.assert ((← Run.sub e.srcEnd e.srcStart) ≤ maxBlockSize))
  repositionTable t maxBlockSize
  let (input, src) ← Proc.lift (sourceBlock e)
  let res ← compressSrc t input src
  let (blockInfo, data) ← Proc.ofExcept (← Proc.lift (blockData res (← Proc.get).dst.data src))
  seedTable t src
  emitBlock blockInfo data
  Proc.modify fun e =>
    if e.frameInfo.contentChecksum then { e with contentHasher := X.write e.contentHasher src } else e
  let e ← Proc.get
  Proc.lift (Run.assert (e.contentLen + src.length < 2 ^ 64))
  Proc.modify fun e => { e with
    contentLen := e.contentLen + src.length, srcStart := e.srcStart + src.length }
  let e ← Proc.get
  Proc.lift (Run.assert (e.srcStart = e.srcEnd))
  slideSource t maxBlockSize src.length
  let e ← Proc.get
  Proc.lift (Run.assert (e.srcStart ≤ e.srcEnd))
  Proc.lift (Run.assert (e.srcStart + maxBlockSize ≤ e.src.capacity))

/-- What an encoder that has failed returns. -/
abbrev REUSED : Error := .other "encoder cannot be reused after an error"

/-- One iteration of `write`: fills the block, or writes it when it is full. -/
def writeStep (t : Target) (buf : List UInt8) : Encode X (Run.Flow (List UInt8) Unit) :=
  if buf = [] then return .done ()
  else do
    let e ← Proc.get
    let srcFilled ← Proc.lift (Run.sub e.srcEnd e.srcStart)
    let maxBlockSize ← Proc.lift e.frameInfo.blockSize.getSize
    let maxFillLen ← Proc.lift (Run.sub maxBlockSize srcFilled)
    if maxFillLen = 0 then do
      writeBlock t
      let e ← Proc.get
      Proc.lift (Run.assert (e.srcEnd = e.srcStart))
      return .next buf
    else do
      let fillLen := min maxFillLen buf.length
      let src ← Proc.lift (vecCopyOverwriting e.src e.srcEnd (buf.take fillLen))
      Proc.modify fun e => { e with src, srcEnd := e.srcEnd + fillLen }
      return .next (buf.drop fillLen)

/-- `Write::write`. -/
def write (t : Target) (buf : List UInt8) : Encode X Nat := do
  let e ← Proc.get
  if e.failed then Proc.throw REUSED
  else do
    Proc.modify fun e => { e with failed := true }
    if e.isFrameOpen = false ∧ buf ≠ [] then beginFrame t buf.length else pure ()
    Proc.loop (writeStep t) (2 * buf.length + 2) buf
    Proc.modify fun e => { e with failed := false }
    return buf.length

/-- `Write::flush`. -/
def flush (t : Target) : Encode X Unit := do
  let e ← Proc.get
  if e.failed then Proc.throw REUSED
  else do
    Proc.modify fun e => { e with failed := true }
    if e.srcStart ≠ e.srcEnd then writeBlock t else pure ()
    flushWriter
    Proc.modify fun e => { e with failed := false }

def tryFinish (t : Target) : Encode X Unit := do
  flush t
  let e ← Proc.get
  if e.isFrameOpen = false ∧ e.dataToFrameWritten then return ()
  else do
    Proc.modify fun e => { e with failed := true }
    if e.isFrameOpen = false then beginFrame t 0 else pure ()
    endFrame
    Proc.modify fun e => { e with dataToFrameWritten := true, failed := false }

/-- `finish`: the writer. -/
def finish (t : Target) (e : FrameEncoder X) : Run (Except Error Writer) := do
  let (r, e) ← tryFinish t e
  return r.map fun _ => e.w

end FrameEncoder

/-- `AutoFinishEncoder`. -/
structure AutoFinishEncoder (X : XxHash32) where
  encoder : Option (FrameEncoder X)

/-- `FrameEncoder::auto_finish`. -/
def FrameEncoder.autoFinish {X : XxHash32} (e : FrameEncoder X) : AutoFinishEncoder X := ⟨some e⟩

namespace AutoFinishEncoder

variable {X : XxHash32}

/-- Code on the encoder that is wrapped, if it is still there. -/
def onEncoder {α : Type} (x : Encode X α) : Proc (AutoFinishEncoder X) Error α := fun a =>
  match a.encoder with
  | none => .ret (.error (.other "encoder already finished"), a)
  | some e => x e >>= fun (r, e) => .ret (r, ⟨some e⟩)

def write (t : Target) (buf : List UInt8) : Proc (AutoFinishEncoder X) Error Nat :=
  onEncoder (FrameEncoder.write t buf)

def flush (t : Target) : Proc (AutoFinishEncoder X) Error Unit := onEncoder (FrameEncoder.flush t)

/-- `Drop::drop`: the writer that is left, where there is still an encoder. -/
def drop (t : Target) (a : AutoFinishEncoder X) : Run (Option Writer) :=
  match a.encoder with
  | none => return none
  | some e => do
    let (_, e) ← FrameEncoder.tryFinish t e
    return some e.w

end AutoFinishEncoder

end Lz4rip.Impl
