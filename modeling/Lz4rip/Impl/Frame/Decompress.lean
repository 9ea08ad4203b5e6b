import Lz4rip.Impl.Decode.Decompress
import Lz4rip.Impl.Frame.Header

/-!
# `frame/decompress.rs`: `FrameDecoder`

The vectors `src` and `dst` are lists: nothing reads their capacity, so the
reservations are left out. Indices into them, and their sums, stay far below
`usize::MAX`. `limited` says whether a block is first decoded within the size
that the frame still declares, as the code does it (`true`), or at once with the
limit of a block.
-/

namespace Lz4rip.Impl

/-- Largest `read_to_end` reservation taken from a declared content size. -/
abbrev MAX_CONTENT_SIZE_RESERVE : Nat := 128 * 1024 * 1024

/-- `declared_size`. -/
def declaredSize (t : Target) (frameInfo : FrameInfo) : Nat :=
  match frameInfo.contentSize with
  | some size => if size.toNat < t.modulus then size.toNat else t.usizeMax
  | none => t.usizeMax

/-! ## Reading headers and checksums -/

/-- Code on the reader. -/
abbrev Reads (ρ α : Type) := Proc ρ Error α

section

variable {ρ : Type} [Read ρ]

/-- `read` into a buffer of `n` bytes: the bytes read. -/
def readSome (n : Nat) : Reads ρ (List UInt8) := fun r =>
  let (res, r) := Read.read n r
  .ret (res.mapError .ioError, r)

/-- `read_exact` into a buffer of `n` bytes. -/
def readFull (n : Nat) : Reads ρ (List UInt8) := fun r =>
  let (got, res, r) := Read.readExact n r
  .ret ((res.map fun _ => got).mapError .ioError, r)

/-- `read_exact` of what `n` bytes lack of `required`. -/
def readRest (n required : Nat) : Reads ρ (List UInt8) :=
  if n = required then pure [] else readFull (required - n)

/-- The magic number, from a first `read` that may be short; nothing at the end of
the stream. -/
def readMagic : Reads ρ (List UInt8) := do
  let first ← readSome MAGIC_NUMBER_SIZE
  if first = [] then return []
  else do
    let rest ← readRest first.length MAGIC_NUMBER_SIZE
    return first ++ rest

/-- The part of `read_frame_info` that reads: the header and its length, or
nothing at the end of the stream. -/
def readHeader (X : XxHash32) : Reads ρ (Option (FrameInfo × Nat)) := do
  let magic ← readMagic
  if magic = [] then return none
  else do
    let fixed ← readFull (MIN_FRAME_INFO_SIZE - MAGIC_NUMBER_SIZE)
    let required ← Proc.ofExcept (← Proc.lift (FrameInfo.readSize (magic ++ fixed)))
    let rest ← readRest MIN_FRAME_INFO_SIZE required
    let frameInfo ← Proc.ofExcept (FrameInfo.read X (magic ++ fixed ++ rest))
    return some (frameInfo, required)

def readBlockInfo : Reads ρ BlockInfo := do
  let buffer ← readFull 4
  Proc.ofExcept (BlockInfo.read buffer)

def readChecksum : Reads ρ UInt32 := do
  let buffer ← readFull 4
  return u32OfLe buffer

/-- `hasher.finish() as u32`. -/
def finish32 (X : XxHash32) (h : X.State) : UInt32 := (X.finish h).toUInt32

def checkBlockChecksum (X : XxHash32) (data : List UInt8) (expected : UInt32) : Except Error Unit :=
  if finish32 X (X.write (X.withSeed 0) data) ≠ expected then .error .blockChecksumError else .ok ()

/-- The frame's `Dict_ID` against the decoder's. -/
def checkDictId : (frame decoder : Option UInt32) → Except Error Unit
  | none, none => .ok ()
  | some _, none => .error .dictionaryNotSupported
  | none, some _ => .error .dictionaryRequired
  | some actual, some expected =>
    if actual ≠ expected then .error (.dictIdMismatch expected actual) else .ok ()

/-- The total output after `len` more bytes. -/
def checkOutputLen (t : Target) (maxOutput bytesOutput len : Nat) : Except Error Nat :=
  if t.modulus ≤ bytesOutput + len then .error (.decompressedSizeLimit maxOutput t.usizeMax)
  else if bytesOutput + len > maxOutput then
    .error (.decompressedSizeLimit maxOutput (bytesOutput + len))
  else .ok (bytesOutput + len)

/-- The content length against the one that the header declares. -/
def checkContentLen (frameInfo : FrameInfo) (contentLen : Nat) : Except Error Unit :=
  match frameInfo.contentSize with
  | some expected =>
    if contentLen ≠ expected.toNat then .error (.contentLengthError expected (.ofNat contentLen))
    else .ok ()
  | none => .ok ()

end

/-! ## The decoder -/

structure FrameDecoder (X : XxHash32) (ρ : Type) where
  r : ρ
  currentFrameInfo : Option FrameInfo
  contentHasher : X.State
  contentLen : Nat
  src : List UInt8
  dst : List UInt8
  extDictOffset : Nat
  extDictLen : Nat
  dstStart : Nat
  dstEnd : Nat
  dict : List UInt8
  expectedDictId : Option UInt32
  maxOutput : Nat
  bytesOutput : Nat
  contentReserve : Option Nat

/-- `FrameDecoderOptions`. -/
structure FrameDecoderOptions where
  dictionary : Option (List UInt8 × UInt32)
  maxOutput : Option Nat

namespace FrameDecoder

variable {X : XxHash32} {ρ : Type}

def new (X : XxHash32) (t : Target) (rdr : ρ) : FrameDecoder X ρ :=
  { r := rdr, src := [], dst := [], extDictOffset := 0, extDictLen := 0, dstStart := 0, dstEnd := 0
    currentFrameInfo := none, contentHasher := X.withSeed 0, contentLen := 0, dict := []
    expectedDictId := none, maxOutput := t.usizeMax, bytesOutput := 0, contentReserve := none }

def withOptions (X : XxHash32) (t : Target) (rdr : ρ) (options : FrameDecoderOptions) :
    FrameDecoder X ρ :=
  let dec := new X t rdr
  let dec := match options.dictionary with
    | some (dict, dictId) => { dec with dict, expectedDictId := some dictId }
    | none => dec
  match options.maxOutput with
  | some maxOutput => { dec with maxOutput }
  | none => dec

def withDictionary (X : XxHash32) (t : Target) (rdr : ρ) (dict : List UInt8) (dictId : UInt32) :
    FrameDecoder X ρ :=
  withOptions X t rdr ⟨some (dict, dictId), none⟩

/-- `dst[dst_start..dst_end]`. -/
def block (d : FrameDecoder X ρ) : Run (List UInt8) := do
  Run.chunk d.dst d.dstStart (← Run.sub d.dstEnd d.dstStart)

end FrameDecoder

/-- Code on the decoder. -/
abbrev Decode (X : XxHash32) (ρ α : Type) := Proc (FrameDecoder X ρ) Error α

namespace FrameDecoder

variable {X : XxHash32} {ρ : Type} [Read ρ]

/-- Code on `self.r`. -/
def onReader {α : Type} (x : Reads ρ α) : Decode X ρ α := fun d =>
  x d.r >>= fun (res, r) => .ret (res, { d with r })

/-- The bytes read, `0` at the end of the stream. -/
def readFrameInfo (t : Target) : Decode X ρ Nat := do
  match ← onReader (readHeader X) with
  | none => return 0
  | some (frameInfo, required) =>
    let d ← Proc.get
    Proc.ofExcept (checkDictId frameInfo.dictId d.expectedDictId)
    let contentReserve := frameInfo.contentSize.map fun _ =>
      min (min (declaredSize t frameInfo) (d.maxOutput - d.bytesOutput)) MAX_CONTENT_SIZE_RESERVE
    Proc.modify fun d => { d with
      contentReserve, currentFrameInfo := some frameInfo, contentHasher := X.withSeed 0,
      contentLen := 0, extDictLen := 0, dstStart := 0, dstEnd := 0 }
    return required

/-- `read_exact` into `dst[dst_start..dst_start + len]`. -/
def readDst (len : Nat) : Decode X ρ Unit := fun d =>
  let dst := growTo d.dst (d.dstStart + len)
  let (got, res, r) := Read.readExact len d.r
  .ret (res.mapError .ioError, { d with dst := store dst d.dstStart got, r })

/-- `read_exact` into `src[..len]`. -/
def readSrc (len : Nat) : Decode X ρ Unit := fun d =>
  let src := growTo d.src len
  let (got, res, r) := Read.readExact len d.r
  .ret (res.mapError .ioError, { d with src := store src 0 got, r })

/-- Reads a block's checksum, if the frame has them, and compares. -/
def verifyBlock (frameInfo : FrameInfo) (data : FrameDecoder X ρ → Run (List UInt8)) :
    Decode X ρ Unit :=
  if frameInfo.blockChecksums then do
    let expected ← onReader readChecksum
    let d ← Proc.get
    Proc.ofExcept (checkBlockChecksum X (← Proc.lift (data d)) expected)
  else pure ()

/-- `bytes_output`, `dst_end` and `content_len` after a block of `len` bytes. -/
def advance (bytesOutput len : Nat) : Decode X ρ Unit := do
  let d ← Proc.get
  Proc.lift (Run.assert (d.contentLen + len < 2 ^ 64))
  Proc.modify fun d => { d with
    bytesOutput, dstEnd := d.dstEnd + len, contentLen := d.contentLen + len }

/-- Decodes the compressed block in `src[..len]` to `dst_start`, writing at most
`limit` bytes. -/
def decompressBlock (t : Target) (len limit : Nat) : Decode X ρ (Except DecompressError Nat) := do
  let d ← Proc.get
  let input ← Proc.lift (Run.chunk d.src 0 len)
  let stop := d.dstStart + limit
  if (d.currentFrameInfo.any fun info => info.blockMode = .linked) ∧ d.extDictLen ≠ 0 then do
    Proc.lift (Run.assert (stop ≤ d.extDictOffset))
    Proc.lift (Run.assert (d.extDictOffset ≤ d.dst.length))
    let head := d.dst.take d.extDictOffset
    let tail := d.dst.drop d.extDictOffset
    let extDict ← Proc.lift (Run.chunk tail 0 d.extDictLen)
    let sink ← Proc.lift (SliceSink.new (← Proc.lift (Run.chunk head 0 stop)) d.dstStart)
    let (res, sink) ← Proc.lift (decompressIntoSinkWithDict t true input sink extDict)
    Proc.modify fun d => { d with dst := store d.dst 0 sink.output }
    return res
  else do
    let dst := growTo d.dst stop
    let sink ← Proc.lift (SliceSink.new (dst.take stop) d.dstStart)
    let (res, sink) ← Proc.lift (
      if d.dict ≠ [] then decompressIntoSinkWithDict t true input sink d.dict
      else decompressIntoSinkWithDict t false input sink [])
    Proc.modify fun d => { d with dst := store dst 0 sink.output }
    return res

/-- The first part of `read_block`: where the history of the next block is, and
where it is decoded to. -/
def slideWindow (frameInfo : FrameInfo) (maxBlockSize : Nat) : Decode X ρ Unit := do
  let d ← Proc.get
  if frameInfo.blockMode = .linked then
    if d.dstStart + maxBlockSize > maxBlockSize * 2 + WINDOW_SIZE then do
      Proc.lift (Run.assert (d.dstStart ≥ maxBlockSize + WINDOW_SIZE))
      let extDictOffset ← Proc.lift (Run.sub d.dstStart WINDOW_SIZE)
      Proc.modify fun d => { d with
        extDictOffset, extDictLen := WINDOW_SIZE, dstStart := 0, dstEnd := 0 }
    else if d.dstStart + d.extDictLen > WINDOW_SIZE then do
      let delta := min d.extDictLen (d.dstStart + d.extDictLen - WINDOW_SIZE)
      Proc.modify fun d => { d with
        extDictOffset := d.extDictOffset + delta, extDictLen := d.extDictLen - delta }
      let d ← Proc.get
      Proc.lift (Run.assert (d.dstStart + d.extDictLen ≥ WINDOW_SIZE))
    else pure ()
  else do
    Proc.lift (Run.assert (d.extDictLen = 0))
    Proc.modify fun d => { d with dstStart := 0, dstEnd := 0 }

/-- `BlockInfo::Uncompressed`. -/
def readUncompressed (t : Target) (frameInfo : FrameInfo) (maxBlockSize len : Nat) :
    Decode X ρ Unit := do
  Proc.refuse (len > maxBlockSize) .blockTooBig
  let d ← Proc.get
  let bytesOutput ← Proc.ofExcept (checkOutputLen t d.maxOutput d.bytesOutput len)
  readDst len
  verifyBlock frameInfo fun d => Run.chunk d.dst d.dstStart len
  advance bytesOutput len

/-- The bytes that the frame still declares. -/
def remaining (t : Target) (frameInfo : FrameInfo) (contentLen : Nat) : Nat :=
  match frameInfo.contentSize with
  | some size => if size.toNat - contentLen < t.modulus then size.toNat - contentLen else t.usizeMax
  | none => t.usizeMax

/-- Decodes a block with `limit`, and once more with `maxBlockSize` when it fails
with less. -/
def decompressWithin (t : Target) (maxBlockSize len limit : Nat) :
    Decode X ρ (Except DecompressError Nat) :=
  Proc.loop (fun limit => do
    match ← decompressBlock t len limit with
    | .error e => if limit < maxBlockSize then return .next maxBlockSize else return .done (.error e)
    | .ok n => return .done (.ok n)) 2 limit

/-- `BlockInfo::Compressed`. -/
def readCompressed (t : Target) (limited : Bool) (frameInfo : FrameInfo) (maxBlockSize len : Nat) :
    Decode X ρ Unit := do
  Proc.refuse (len > maxBlockSize) .blockTooBig
  readSrc len
  verifyBlock frameInfo fun d => Run.chunk d.src 0 len
  let d ← Proc.get
  let limit := if limited then min maxBlockSize (remaining t frameInfo d.contentLen)
    else maxBlockSize
  let res ← decompressWithin t maxBlockSize len limit
  let decompSize ← Proc.ofExcept (res.mapError .decompressionError)
  let d ← Proc.get
  let bytesOutput ← Proc.ofExcept (checkOutputLen t d.maxOutput d.bytesOutput decompSize)
  advance bytesOutput decompSize

/-- `BlockInfo::EndMark`. -/
def readEndMark (frameInfo : FrameInfo) : Decode X ρ Unit := do
  let d ← Proc.get
  Proc.ofExcept (checkContentLen frameInfo d.contentLen)
  if frameInfo.contentChecksum then do
    let expected ← onReader readChecksum
    Proc.refuse (finish32 X d.contentHasher ≠ expected) .contentChecksumError
  else pure ()
  Proc.modify fun d => { d with currentFrameInfo := none }

/-- The number of bytes that the block decodes to. -/
def readBlock (t : Target) (limited : Bool) : Decode X ρ Nat := do
  let d ← Proc.get
  Proc.lift (Run.assert (d.dstStart = d.dstEnd))
  match d.currentFrameInfo with
  | none => Proc.throw (.other "no frame header has been read")
  | some frameInfo =>
    let maxBlockSize ← Proc.lift frameInfo.blockSize.getSize
    slideWindow frameInfo maxBlockSize
    match ← onReader readBlockInfo with
    | .endMark => do
      readEndMark frameInfo
      return 0
    | .uncompressed len => do
      readUncompressed t frameInfo maxBlockSize len.toNat
      afterBlock frameInfo
    | .compressed len => do
      readCompressed t limited frameInfo maxBlockSize len.toNat
      afterBlock frameInfo
where
  afterBlock (frameInfo : FrameInfo) : Decode X ρ Nat := do
    let d ← Proc.get
    if frameInfo.contentChecksum then do
      let block ← Proc.lift d.block
      Proc.modify fun d => { d with contentHasher := X.write d.contentHasher block }
    else pure ()
    Proc.lift (Run.sub d.dstEnd d.dstStart)

/-- The condition at the start of `read_more`'s loop: `0` when no frame is open
and none starts. -/
def openFrame (t : Target) : Decode X ρ Nat := do
  let d ← Proc.get
  if d.currentFrameInfo.isNone then readFrameInfo t else return 1

/-- One iteration of `read_more`. -/
def readMoreStep (t : Target) (limited : Bool) (_ : Unit) : Decode X ρ (Run.Flow Unit Nat) := do
  let opened ← openFrame t
  if opened = 0 then return .done 0
  else
    match ← Proc.attempt (readBlock t limited) with
    | .error e => do
      Proc.modify fun d => { d with currentFrameInfo := none }
      Proc.throw e
    | .ok read => if read ≠ 0 then return .done read else return .next ()

def readMore (t : Target) (limited : Bool) : Decode X ρ Nat := do
  let d ← Proc.get
  Proc.loop (readMoreStep t limited) (Read.left d.r + 1) ()

/-- `Read::read` into a buffer of `len` bytes: the bytes read. -/
def read (t : Target) (limited : Bool) (len : Nat) : Decode X ρ (List UInt8) :=
  Proc.loop (fun _ => do
    let d ← Proc.get
    if d.dstStart < d.dstEnd then do
      let readLen := min (d.dstEnd - d.dstStart) len
      let bytes ← Proc.lift (Run.chunk d.dst d.dstStart readLen)
      Proc.modify fun d => { d with dstStart := d.dstStart + readLen }
      return .done bytes
    else do
      let read ← readMore t limited
      if read = 0 then return .done [] else return .next ()) 2 ()

/-- `BufRead::fill_buf`. -/
def fillBuf (t : Target) (limited : Bool) : Decode X ρ (List UInt8) := do
  let d ← Proc.get
  if d.dstStart = d.dstEnd then do
    let _ ← readMore t limited
    Proc.lift (← Proc.get).block
  else Proc.lift d.block

/-- `BufRead::consume`. -/
def consume (amt : Nat) : Decode X ρ Unit := do
  let d ← Proc.get
  Proc.lift (do Run.assert (amt ≤ (← Run.sub d.dstEnd d.dstStart)))
  Proc.modify fun d => { d with dstStart := d.dstStart + amt }

/-- One iteration of `read_to_end`, on what is appended to the vector. -/
def readToEndStep (t : Target) (limited : Bool) (buf : List UInt8) :
    Decode X ρ (Run.Flow (List UInt8) (List UInt8 × Except Error Nat)) := do
  match ← Proc.attempt (fillBuf t limited) with
  | .ok [] => return .done (buf, .ok buf.length)
  | .error e => if e.kind = .interrupted then return .next buf else return .done (buf, .error e)
  | .ok (_ :: _) => do
    Proc.modify fun d => { d with contentReserve := none }
    let block ← Proc.lift (← Proc.get).block
    consume block.length
    return .next (buf ++ block)

/-- `Read::read_to_end`: what is appended to the vector, and the result. The vector is the
caller's: its capacity, and with it the limit up to which it can grow, is left out. -/
def readToEnd (t : Target) (limited : Bool) : Decode X ρ (List UInt8 × Except Error Nat) := do
  let d ← Proc.get
  Proc.loop (readToEndStep t limited) (Read.left d.r + 2) []

end FrameDecoder

end Lz4rip.Impl
