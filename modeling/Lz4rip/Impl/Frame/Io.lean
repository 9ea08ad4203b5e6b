import Lz4rip.Framework.Proc
import Lz4rip.Impl.Core

/-!
# What the frame code uses: errors, readers, writers, vectors and the hash

A frame error that is turned into an `io::Error` (`From<Error>`) and back
(`From<io::Error>`) is the same error again, so both are `Error` here, and
`Error.kind` is what `io::Error::kind` says.

`Read` is `io::Read`. A `Reader` is a script of what its calls give: chunks of
bytes, split where a call asks for less, and errors; at its end it reports the
end of the stream. `&[u8]` is a reader as well. A `Writer` keeps what it has
accepted, with a script of how much of each `write` it takes.

The hash is a parameter (`XxHash32`): `twox-hash` is another crate.
-/

namespace Lz4rip.Impl

/-! ## Errors -/

/-- `io::ErrorKind`; `named` are the kinds that the code has no name for. -/
inductive ErrorKind where
  | unexpectedEof
  | interrupted
  | invalidData
  | invalidInput
  | writeZero
  | other
  | named (n : Nat)
  deriving DecidableEq, Repr

/-- An `io::Error` that wraps no frame error. -/
structure IoError where
  kind : ErrorKind
  message : String
  deriving DecidableEq, Repr

/-- `io::Error::READ_EXACT_EOF` and `WRITE_ALL_EOF`. -/
def READ_EXACT_EOF : IoError := ⟨.unexpectedEof, "failed to fill whole buffer"⟩
def WRITE_ALL_EOF : IoError := ⟨.writeZero, "failed to write whole buffer"⟩

/-- `frame::Error`. -/
inductive Error where
  | compressionError (e : CompressError)
  | decompressionError (e : DecompressError)
  | ioError (e : IoError)
  | unsupportedBlocksize (b : UInt8)
  | unsupportedVersion (v : UInt8)
  | wrongMagicNumber
  | reservedBitsSet
  | invalidBlockInfo
  | blockTooBig
  | headerChecksumError
  | blockChecksumError
  | contentChecksumError
  | skippableFrame (len : UInt32)
  | dictionaryNotSupported
  | dictionaryRequired
  | dictionaryRequiresIndependentBlocks
  | dictIdMismatch (expected actual : UInt32)
  | decompressedSizeLimit (limit actual : Nat)
  | contentLengthError (expected actual : UInt64)
  deriving DecidableEq, Repr

/-- The kind of the `io::Error` that an error is turned into. -/
def Error.kind : Error → ErrorKind
  | .ioError e => e.kind
  | .compressionError _ | .decompressionError _ | .skippableFrame _ | .dictionaryNotSupported
  | .dictionaryRequired | .decompressedSizeLimit .. | .dictIdMismatch .. => .other
  | .dictionaryRequiresIndependentBlocks => .invalidInput
  | .wrongMagicNumber | .unsupportedBlocksize _ | .unsupportedVersion _ | .reservedBitsSet
  | .invalidBlockInfo | .blockTooBig | .headerChecksumError | .contentChecksumError
  | .blockChecksumError | .contentLengthError .. => .invalidData

/-- A number as `:#010x` prints it. -/
def hex8 (n : UInt32) : String :=
  "0x" ++ String.ofList ((List.range 8).reverse.map fun i => Nat.digitChar (n.toNat / 16 ^ i % 16))

/-- `Display for Error`. -/
def Error.display : Error → String
  | .compressionError e => "compression error: " ++ e.display
  | .decompressionError e => "decompression error: " ++ e.display
  | .ioError e => "I/O error: " ++ e.message
  | .unsupportedBlocksize b => "unsupported block size: " ++ toString b
  | .unsupportedVersion v => "unsupported frame version: " ++ toString v
  | .wrongMagicNumber => "wrong magic number"
  | .reservedBitsSet => "reserved bits set in frame descriptor"
  | .invalidBlockInfo => "invalid block header"
  | .blockTooBig => "block larger than frame header allows"
  | .headerChecksumError => "frame header checksum mismatch"
  | .blockChecksumError => "block checksum mismatch"
  | .contentChecksumError => "content checksum mismatch"
  | .skippableFrame len => "skippable frame (" ++ toString len ++ " bytes)"
  | .dictionaryRequiresIndependentBlocks => "dictionary frames can use independent or linked blocks"
  | .dictionaryNotSupported => "frame declares a dictionary but no dictionary was provided"
  | .dictionaryRequired => "decoder has a dictionary but frame does not declare one"
  | .dictIdMismatch expected actual =>
    "dictionary ID mismatch: frame declares " ++ hex8 expected ++ ", decoder has " ++ hex8 actual
  | .decompressedSizeLimit limit actual =>
    "decompressed size limit exceeded: limit " ++ toString limit ++ ", got " ++ toString actual
  | .contentLengthError expected actual =>
    "content length mismatch: expected " ++ toString expected ++ ", got " ++ toString actual

/-- `io::Error::other(message)`. -/
def Error.other (message : String) : Error := .ioError ⟨.other, message⟩

/-! ## Readers -/

/-- `io::Read`. `readExact` gives the bytes that it has filled, also when it
fails. `left` bounds the calls that can still give something; only the fuel of
loops is taken from it. -/
class Read (ρ : Type) where
  read : Nat → ρ → Except IoError (List UInt8) × ρ
  readExact : Nat → ρ → List UInt8 × Except IoError Unit × ρ
  left : ρ → Nat

/-- What one call of `read` gives: some of the bytes, or an error. -/
inductive ReadEvent where
  | data (bytes : List UInt8)
  | fail (e : IoError)
  deriving DecidableEq, Repr

structure Reader where
  events : List ReadEvent
  deriving DecidableEq, Repr

namespace Reader

/-- `read` into a buffer of `n` bytes: a chunk that is longer is split. -/
def readEvents (n : Nat) : List ReadEvent → Except IoError (List UInt8) × List ReadEvent
  | [] => (.ok [], [])
  | .fail e :: es => (.error e, es)
  | .data bs :: es =>
    if bs.length ≤ n then (.ok bs, es) else (.ok (bs.take n), .data (bs.drop n) :: es)

/-- `default_read_exact`: reads until the buffer is full, again after an
interrupted call. -/
def readExactEvents : Nat → List ReadEvent → List UInt8 × Except IoError Unit × List ReadEvent
  | 0, es => ([], .ok (), es)
  | _ + 1, [] => ([], .error READ_EXACT_EOF, [])
  | n + 1, .fail e :: es =>
    if e.kind = .interrupted then readExactEvents (n + 1) es else ([], .error e, es)
  | n + 1, .data bs :: es =>
    if bs = [] then ([], .error READ_EXACT_EOF, es)
    else if n + 1 < bs.length then (bs.take (n + 1), .ok (), .data (bs.drop (n + 1)) :: es)
    else
      let (got, r, es) := readExactEvents (n + 1 - bs.length) es
      (bs ++ got, r, es)
termination_by structural _ es => es

def eventSize : ReadEvent → Nat
  | .data bs => bs.length + 1
  | .fail _ => 1

end Reader

instance : Read Reader where
  read n r :=
    let (res, es) := Reader.readEvents n r.events
    (res, ⟨es⟩)
  readExact n r :=
    let (got, res, es) := Reader.readExactEvents n r.events
    (got, res, ⟨es⟩)
  left r := (r.events.map Reader.eventSize).sum

/-- `impl Read for &[u8]`. -/
instance : Read (List UInt8) where
  read n bs := (.ok (bs.take n), bs.drop n)
  readExact n bs :=
    if bs.length < n then ([], .error READ_EXACT_EOF, []) else (bs.take n, .ok (), bs.drop n)
  left bs := bs.length

/-! ## Writers -/

/-- How a writer answers one call of `write`. -/
inductive WriteReply where
  | accept (n : Nat)
  | fail (e : IoError)
  deriving DecidableEq, Repr

/-- A writer: what it has accepted, and how it answers the next calls of
`write` and `flush`. Past the script, `write` takes all and `flush` succeeds. -/
structure Writer where
  accepted : List UInt8
  replies : List WriteReply
  flushes : List (Except IoError Unit)

namespace Writer

/-- `default write_all`: the bytes taken, the result and the rest of the
script. -/
def writeAllReplies (buf : List UInt8) :
    List WriteReply → List UInt8 × Except IoError Unit × List WriteReply
  | [] => (buf, .ok (), [])
  | .fail e :: rs =>
    if buf = [] then ([], .ok (), .fail e :: rs)
    else if e.kind = .interrupted then writeAllReplies buf rs
    else ([], .error e, rs)
  | .accept n :: rs =>
    if buf = [] then ([], .ok (), .accept n :: rs)
    else if n = 0 then ([], .error WRITE_ALL_EOF, rs)
    else
      let (taken, r, rs) := writeAllReplies (buf.drop n) rs
      (buf.take n ++ taken, r, rs)

def writeAll (w : Writer) (buf : List UInt8) : Except IoError Unit × Writer :=
  let (taken, r, replies) := writeAllReplies buf w.replies
  (r, { w with accepted := w.accepted ++ taken, replies })

def flush (w : Writer) : Except IoError Unit × Writer :=
  match w.flushes with
  | [] => (.ok (), w)
  | r :: rs => (r, { w with flushes := rs })

end Writer

/-! ## Vectors -/

/-- `Vec<u8>`. -/
structure Vec where
  data : List UInt8
  capacity : Nat
  deriving DecidableEq, Repr

namespace Vec

/-- `Vec::new`. -/
def new : Vec := ⟨[], 0⟩

/-- `reserve`, with the amortized growth of `RawVec`. -/
def reserve (v : Vec) (additional : Nat) : Vec :=
  if v.data.length + additional ≤ v.capacity then v
  else { v with capacity := max 8 (max (2 * v.capacity) (v.data.length + additional)) }

/-- `extend_from_slice`. -/
def extend (v : Vec) (bytes : List UInt8) : Vec :=
  let v := v.reserve bytes.length
  { v with data := v.data ++ bytes }

/-- `resize(len, 0)`. -/
def resize (v : Vec) (len : Nat) : Vec :=
  if len ≤ v.data.length then { v with data := v.data.take len }
  else v.extend (List.replicate (len - v.data.length) 0)

def clear (v : Vec) : Vec := { v with data := [] }

end Vec

/-- `resize(len, 0)` of a vector whose capacity nothing reads, where that makes
it longer. -/
def growTo (v : List UInt8) (len : Nat) : List UInt8 := v ++ List.replicate (len - v.length) 0

/-! ## The hash -/

/-- `twox_hash::XxHash32`. -/
structure XxHash32 where
  State : Type
  withSeed : UInt32 → State
  write : State → List UInt8 → State
  /-- `Hasher::finish`, a `u64`. -/
  finish : State → UInt64
  oneshot : UInt32 → List UInt8 → UInt32

end Lz4rip.Impl
