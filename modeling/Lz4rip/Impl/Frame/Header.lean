import Lz4rip.Impl.Frame.Io

/-!
# `frame/header.rs`: frame and block headers
-/

namespace Lz4rip.Impl

abbrev FLG_RESERVED_MASK : UInt8 := 0b00000010
abbrev FLG_VERSION_MASK : UInt8 := 0b11000000
abbrev FLG_SUPPORTED_VERSION_BITS : UInt8 := 0b01000000

abbrev FLG_INDEPENDENT_BLOCKS : UInt8 := 0b00100000
abbrev FLG_BLOCK_CHECKSUMS : UInt8 := 0b00010000
abbrev FLG_CONTENT_SIZE : UInt8 := 0b00001000
abbrev FLG_CONTENT_CHECKSUM : UInt8 := 0b00000100
abbrev FLG_DICTIONARY_ID : UInt8 := 0b00000001

abbrev BD_BLOCK_SIZE_MASK : UInt8 := 0b01110000
abbrev BD_RESERVED_MASK : UInt8 := ~~~BD_BLOCK_SIZE_MASK
abbrev BD_BLOCK_SIZE_MASK_RSHIFT : UInt8 := 4

abbrev BLOCK_UNCOMPRESSED_SIZE_BIT : UInt32 := 0x80000000

abbrev LZ4F_MAGIC_NUMBER : UInt32 := 0x184D2204

/-- `LZ4F_SKIPPABLE_MAGIC_RANGE.contains`. -/
def isSkippableMagic (magic : UInt32) : Bool := 0x184D2A50 ≤ magic ∧ magic ≤ 0x184D2A5F

abbrev MAGIC_NUMBER_SIZE : Nat := 4
abbrev MIN_FRAME_INFO_SIZE : Nat := 7
abbrev MAX_FRAME_INFO_SIZE : Nat := 19
abbrev BLOCK_INFO_SIZE : Nat := 4

/-- `from_le_bytes` and `to_le_bytes`. -/
def u32OfLe (bytes : List UInt8) : UInt32 := .ofNat (leNat bytes)
def u64OfLe (bytes : List UInt8) : UInt64 := .ofNat (leNat bytes)
def leOfU32 (n : UInt32) : List UInt8 := leBytes 4 n.toNat
def leOfU64 (n : UInt64) : List UInt8 := leBytes 8 n.toNat

inductive BlockSize where
  | auto
  | max64KB
  | max256KB
  | max1MB
  | max4MB
  deriving DecidableEq, Repr

namespace BlockSize

/-- `self.block_size as u8`. -/
def toByte : BlockSize → UInt8
  | .auto => 0
  | .max64KB => 4
  | .max256KB => 5
  | .max1MB => 6
  | .max4MB => 7

/-- `get_size`, which is not reached with `Auto`. -/
def getSize : BlockSize → Run Nat
  | .auto => .panic
  | .max64KB => .ret (64 * 1024)
  | .max256KB => .ret (256 * 1024)
  | .max1MB => .ret (1024 * 1024)
  | .max4MB => .ret (4 * 1024 * 1024)

/-- `from_buf_length`, with its loop over two candidates written out. -/
def fromBufLength (bufLen : Nat) : BlockSize :=
  if bufLen > 256 * 1024 then .max4MB
  else if bufLen > 64 * 1024 then .max256KB
  else .max64KB

end BlockSize

inductive BlockMode where
  | independent
  | linked
  deriving DecidableEq, Repr

structure FrameInfo where
  contentSize : Option UInt64
  dictId : Option UInt32
  blockSize : BlockSize
  blockMode : BlockMode
  blockChecksums : Bool
  contentChecksum : Bool
  deriving DecidableEq, Repr

namespace FrameInfo

/-- `FrameInfo::default`. -/
def default : FrameInfo := ⟨none, none, .auto, .independent, false, false⟩

def readSize (input : List UInt8) : Run (Except Error Nat) := do
  let magicNum := u32OfLe (← Run.chunk input 0 4)
  if input.length < MIN_FRAME_INFO_SIZE then return .ok MIN_FRAME_INFO_SIZE
  else if isSkippableMagic magicNum then return .ok 8
  else if magicNum ≠ LZ4F_MAGIC_NUMBER then return .error .wrongMagicNumber
  else
    let flg ← Run.index input 4
    let required := MIN_FRAME_INFO_SIZE
    let required := if flg &&& FLG_CONTENT_SIZE ≠ 0 then required + 8 else required
    let required := if flg &&& FLG_DICTIONARY_ID ≠ 0 then required + 4 else required
    return .ok required

def writeSize (info : FrameInfo) : Nat :=
  let required := MIN_FRAME_INFO_SIZE
  let required := if info.contentSize.isSome then required + 8 else required
  if info.dictId.isSome then required + 4 else required

/-- `buffer[4]` when all is written to it. -/
def flg (info : FrameInfo) : UInt8 :=
  FLG_SUPPORTED_VERSION_BITS |||
  (if info.blockChecksums then FLG_BLOCK_CHECKSUMS else 0) |||
  (if info.contentChecksum then FLG_CONTENT_CHECKSUM else 0) |||
  (if info.blockMode = .independent then FLG_INDEPENDENT_BLOCKS else 0) |||
  (if info.contentSize.isSome then FLG_CONTENT_SIZE else 0) |||
  (if info.dictId.isSome then FLG_DICTIONARY_ID else 0)

/-- `buffer[4..offset]`, which the header checksum is taken of. -/
def descriptor (info : FrameInfo) : List UInt8 :=
  [info.flg, info.blockSize.toByte <<< BD_BLOCK_SIZE_MASK_RSHIFT] ++
    (info.contentSize.map leOfU64).getD [] ++ (info.dictId.map leOfU32).getD []

/-- `(hasher.finish() >> 8) as u8`, of `bytes`. -/
def headerChecksum (X : XxHash32) (bytes : List UInt8) : UInt8 :=
  (X.finish (X.write (X.withSeed 0) bytes) >>> 8).toUInt8

/-- `FrameInfo::write`: the size written, and the output after the call. -/
def write (X : XxHash32) (info : FrameInfo) (output : List UInt8) :
    Run (Except Error Nat × List UInt8) :=
  let writeSize := info.writeSize
  if output.length < writeSize then
    return (.error (.ioError ⟨.unexpectedEof, "unexpected end of file"⟩), output)
  else do
    Run.assert (writeSize ≤ MAX_FRAME_INFO_SIZE)
    let bs := info.blockSize.toByte
    if ¬ (4 ≤ bs ∧ bs ≤ 7) then return (.error (.unsupportedBlocksize bs), output)
    else
      let buffer := leOfU32 LZ4F_MAGIC_NUMBER ++ info.descriptor ++
        [headerChecksum X info.descriptor]
      Run.assert (buffer.length = writeSize)
      return (.ok writeSize, ← Run.storeAt output 0 buffer)

/-- `read_exact` of `n` bytes from the slice that is left of the header. -/
def readSlice (n : Nat) (input : List UInt8) : Except Error (List UInt8 × List UInt8) :=
  if input.length < n then .error (.ioError READ_EXACT_EOF) else .ok (input.take n, input.drop n)

/-- A field that is there when its flag is set. -/
def readOptional {α : Type} (present : Bool) (n : Nat) (ofLe : List UInt8 → α)
    (input : List UInt8) : Except Error (Option α × List UInt8) :=
  if present then
    match readSlice n input with
    | .error e => .error e
    | .ok (bytes, input) => .ok (some (ofLe bytes), input)
  else .ok (none, input)

/-- The block size that `bd` declares. -/
def readBlockSize (bd : UInt8) : Except Error BlockSize :=
  match (bd &&& BD_BLOCK_SIZE_MASK) >>> BD_BLOCK_SIZE_MASK_RSHIFT with
  | 4 => .ok .max64KB
  | 5 => .ok .max256KB
  | 6 => .ok .max1MB
  | 7 => .ok .max4MB
  | i => .error (.unsupportedBlocksize i)

/-- `FrameInfo::read` past the magic number: the frame descriptor. -/
def readDescriptor (X : XxHash32) (originalInput input : List UInt8) : Except Error FrameInfo := do
  let (bytes, input) ← readSlice 2 input
  let flg := bytes.getD 0 0
  let bd := bytes.getD 1 0
  if flg &&& FLG_VERSION_MASK ≠ FLG_SUPPORTED_VERSION_BITS then
    .error (.unsupportedVersion (flg &&& FLG_VERSION_MASK))
  else if flg &&& FLG_RESERVED_MASK ≠ 0 ∨ bd &&& BD_RESERVED_MASK ≠ 0 then .error .reservedBitsSet
  else
    let blockMode := if flg &&& FLG_INDEPENDENT_BLOCKS ≠ 0 then .independent else .linked
    let contentChecksum := decide (flg &&& FLG_CONTENT_CHECKSUM ≠ 0)
    let blockChecksums := decide (flg &&& FLG_BLOCK_CHECKSUMS ≠ 0)
    let blockSize ← readBlockSize bd
    let (contentSize, input) ← readOptional (flg &&& FLG_CONTENT_SIZE ≠ 0) 8 u64OfLe input
    let (dictId, input) ← readOptional (flg &&& FLG_DICTIONARY_ID ≠ 0) 4 u32OfLe input
    let (expectedChecksum, input) ← readSlice 1 input
    let hashed := seg originalInput 4 (originalInput.length - input.length - 1 - 4)
    if headerChecksum X hashed ≠ expectedChecksum.getD 0 0 then .error .headerChecksumError
    else .ok ⟨contentSize, dictId, blockSize, blockMode, blockChecksums, contentChecksum⟩

/-- `FrameInfo::read`. -/
def read (X : XxHash32) (input : List UInt8) : Except Error FrameInfo := do
  let originalInput := input
  let (magic, input) ← readSlice 4 input
  let magicNum := u32OfLe magic
  if isSkippableMagic magicNum then do
    let (userDataLen, _) ← readSlice 4 input
    .error (.skippableFrame (u32OfLe userDataLen))
  else if magicNum ≠ LZ4F_MAGIC_NUMBER then .error .wrongMagicNumber
  else readDescriptor X originalInput input

end FrameInfo

inductive BlockInfo where
  | compressed (len : UInt32)
  | uncompressed (len : UInt32)
  | endMark
  deriving DecidableEq, Repr

namespace BlockInfo

/-- `BlockInfo::read`, of the four bytes that its callers pass. -/
def read (input : List UInt8) : Except Error BlockInfo := do
  let (sizeBuffer, _) ← FrameInfo.readSlice 4 input
  let size := u32OfLe sizeBuffer
  if size = 0 then .ok .endMark
  else if size &&& BLOCK_UNCOMPRESSED_SIZE_BIT ≠ 0 then
    .ok (.uncompressed (size &&& ~~~BLOCK_UNCOMPRESSED_SIZE_BIT))
  else .ok (.compressed size)

/-- `BlockInfo::write`: the four bytes written. -/
def write : BlockInfo → Except Error (List UInt8)
  | .compressed len =>
    if len = 0 then .error .invalidBlockInfo
    else if len &&& BLOCK_UNCOMPRESSED_SIZE_BIT ≠ 0 then .error .invalidBlockInfo
    else .ok (leOfU32 len)
  | .uncompressed len =>
    if len &&& BLOCK_UNCOMPRESSED_SIZE_BIT ≠ 0 then .error .invalidBlockInfo
    else .ok (leOfU32 (len ||| BLOCK_UNCOMPRESSED_SIZE_BIT))
  | .endMark => .ok (leOfU32 0)

end BlockInfo

end Lz4rip.Impl
