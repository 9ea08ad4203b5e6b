import Lz4rip.Impl.Encode.HashTable

/-!
# `lz4rip-encode`, `compress.rs`: writing sequences

The compress loops write into the unwritten tail of the output buffer. `Rest`
has that tail, and what was written in front of it.
-/

namespace Lz4rip.Impl

/-- The bytes written, and the rest of the buffer. -/
structure Rest where
  written : List UInt8
  rest : List UInt8
  deriving DecidableEq, Repr

/-- Writes `byte` to the front of the rest. -/
def putByte (o : Rest) (byte : UInt8) : Run Rest :=
  match o.rest with
  | [] => .panic
  | _ :: tail => .ret ⟨o.written ++ [byte], tail⟩

/-- Writes `bytes` to the front of the rest. -/
def putSlice (t : Target) (o : Rest) (bytes : List UInt8) : Run Rest := do
  let dst ← Run.chunk o.rest 0 bytes.length
  let dst ← sliceCopy t.avx bytes dst
  return ⟨o.written ++ dst, o.rest.drop bytes.length⟩

/-- The loop of `writeInteger`. -/
def writeIntegerLoop (s : SliceSink × Nat) : Run (Run.Flow (SliceSink × Nat) (SliceSink × Nat)) := do
  let (output, n) := s
  if n ≥ 0xFF then
    let output ← output.push 0xFF
    return .next (output, n - 0xFF)
  else return .done (output, n)

/-- Writes a variable-length integer in the LZ4 encoding to a sink. -/
def writeInteger (output : SliceSink) (n : Nat) : Run SliceSink := do
  let (output, n) ← Run.loop writeIntegerLoop (n + 1) (output, n)
  output.push (UInt8.ofNat n)

/-- The loop of `putInteger`. -/
def putIntegerLoop (s : Rest × Nat) : Run (Run.Flow (Rest × Nat) (Rest × Nat)) := do
  let (rest, n) := s
  if n ≥ 0xFF then
    let rest ← putByte rest 0xFF
    return .next (rest, n - 0xFF)
  else return .done (rest, n)

/-- Writes a variable-length integer in the LZ4 encoding. -/
def putInteger (o : Rest) (n : Nat) : Run Rest := do
  let (o, n) ← Run.loop putIntegerLoop (n + 1) (o, n)
  putByte o (UInt8.ofNat n)

/-- The length bytes of a length that does not fit its four bits in the
token. -/
def putLength (o : Rest) (n : Nat) : Run Rest :=
  if n ≥ 0xF then putInteger o (n - 0xF) else pure o

def tokenFromLiteral (litLen : Nat) : UInt8 :=
  if litLen < 0xF then UInt8.ofNat litLen <<< 4 else 0xF0

def tokenFromLiteralAndMatchLength (litLen duplicateLength : Nat) : UInt8 :=
  let token := if litLen < 0xF then UInt8.ofNat litLen <<< 4 else 0xF0
  token ||| if duplicateLength < 0xF then UInt8.ofNat duplicateLength else 0xF

/-- Writes the final literal run `input[start..]`. -/
def handleLastLiterals (t : Target) (o : Rest) (input : List UInt8) (start : Nat) : Run Rest := do
  let litLen ← Run.sub input.length start
  let o ← putByte o (tokenFromLiteral litLen)
  let o ← putLength o litLen
  putSlice t o (input.drop start)

/-- The path of `emitSequence` without length bytes: 16 literal bytes whatever
the run length, and the offset over the excess. -/
def emitShortSequence (o : Rest) (src : List UInt8) (litLen offset matchLen : Nat) : Run Rest := do
  let seq ← Run.storeAt o.rest 0 [UInt8.ofNat litLen <<< 4 ||| UInt8.ofNat matchLen]
  let seq ← Run.storeAt seq 1 src
  let seq ← Run.storeAt seq (1 + litLen) (leBytes 2 offset)
  return ⟨o.written ++ seq.take (3 + litLen), seq.drop (3 + litLen)⟩

/-- The path of `emitSequence` with a test for each part. -/
def emitLongSequence (t : Target) (o : Rest) (input : List UInt8)
    (literalStart litLen offset matchLen : Nat) : Run Rest := do
  let literals ← Run.chunk input literalStart litLen
  let o ← putByte o (tokenFromLiteralAndMatchLength litLen matchLen)
  let o ← putLength o litLen
  let o ← putSlice t o literals
  let o ← putSlice t o (leBytes 2 offset)
  putLength o matchLen

/-- Writes one sequence (token, literal run, offset, match length). -/
def emitSequence (t : Target) (o : Rest) (input : List UInt8)
    (literalStart litLen offset matchLen : Nat) : Run Rest :=
  if (litLen < 0xF ∧ matchLen < 0xF) ∧ 19 ≤ o.rest.length ∧ literalStart + 16 ≤ input.length then
    emitShortSequence o (seg input literalStart 16) litLen offset matchLen
  else emitLongSequence t o input literalStart litLen offset matchLen

/-- The maximum output size of the compressed data, with its `u64`
intermediate, in a build with overflow checks: without them the product
wraps. -/
def getMaximumOutputSize (t : Target) (inputLen : Nat) : Run Nat := do
  Run.assert (inputLen * 110 < 2 ^ 64)
  let raw := 16 + 4 + inputLen * 110 / 100
  return if raw > t.usizeMax then t.usizeMax else raw

end Lz4rip.Impl
