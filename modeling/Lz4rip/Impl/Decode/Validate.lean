import Lz4rip.Impl.Decode.Decompress

/-!
# `lz4rip-decode`, `validate.rs`: validation without output
-/

namespace Lz4rip.Impl

/-- Result of validating a raw LZ4 block. -/
structure BlockValidation where
  decodedLen : Nat
  deriving DecidableEq, Repr

def extensionLimit (decodedPos baseLength expected : Nat) : Nat :=
  expected - decodedPos - baseLength

def advanceDecoded (t : Target) (decodedPos length expected : Nat) : Except DecompressError Nat :=
  if decodedPos + length < t.modulus then
    if decodedPos + length > expected then
      .error (.decodedSizeMismatch expected (decodedPos + length))
    else .ok (decodedPos + length)
  else .error .literalOutOfBounds

/-- Where a token leads: the input position and the decoded size before the
next one, or the result. -/
abbrev ValidateFlow := Run.Flow (Nat × Nat) (Except DecompressError BlockValidation)

/-- What follows the loop. -/
def validateEnd (expectedDecodedLen decodedPos : Nat) : Except DecompressError BlockValidation :=
  if decodedPos ≠ expectedDecodedLen then
    .error (.decodedSizeMismatch expectedDecodedLen decodedPos)
  else .ok ⟨decodedPos⟩

/-- The match of a token, after its literals. -/
def validateMatch (t : Target) (input : List UInt8) (expectedDecodedLen dictLen : Nat)
    (token : UInt8) (inputPos decodedPos : Nat) : ValidateFlow :=
  match readOffset input inputPos with
  | .error e => .done (.error e)
  | .ok (offset, inputPos) =>
    let matchStart := decodedPos
    let matchExtensionLimit := extensionLimit decodedPos (MINMATCH + 15) expectedDecodedLen
    match readMatchLength t input inputPos token matchExtensionLimit with
    | .error e => .done (.error e)
    | .ok (matchLength, inputPos) =>
      match advanceDecoded t decodedPos matchLength expectedDecodedLen with
      | .error e => .done (.error e)
      | .ok decodedPos =>
        if offset > matchStart ∧ offset - matchStart > dictLen then
          .done (.error .offsetOutOfBounds)
        else .next (inputPos, decodedPos)

/-- One iteration of the loop: a token. -/
def validateToken (t : Target) (input : List UInt8) (expectedDecodedLen dictLen : Nat)
    (s : Nat × Nat) : ValidateFlow :=
  let (inputPos, decodedPos) := s
  match input[inputPos]? with
  | none => .done (.error .expectedAnotherByte)
  | some token =>
    let literalExtensionLimit := extensionLimit decodedPos 15 expectedDecodedLen
    match readLiteralLength t input (inputPos + 1) token literalExtensionLimit with
    | .error e => .done (.error e)
    | .ok (literalLength, inputPos) =>
      match advanceDecoded t decodedPos literalLength expectedDecodedLen with
      | .error e => .done (.error e)
      | .ok decodedPos =>
        if inputPos + literalLength < t.modulus ∧ inputPos + literalLength ≤ input.length then
          if inputPos + literalLength = input.length then
            .done (validateEnd expectedDecodedLen decodedPos)
          else
            validateMatch t input expectedDecodedLen dictLen token (inputPos + literalLength)
              decodedPos
        else .done (.error .literalOutOfBounds)

def validateBlockInternal (t : Target) (input : List UInt8) (expectedDecodedLen dictLen : Nat) :
    Run (Except DecompressError BlockValidation) :=
  Run.loop (fun s => .ret (validateToken t input expectedDecodedLen dictLen s)) (input.length + 1)
    (0, 0)

def validateBlock (t : Target) (input : List UInt8) (expectedDecodedLen : Nat) :
    Run (Except DecompressError BlockValidation) :=
  validateBlockInternal t input expectedDecodedLen 0

def validateBlockWithDict (t : Target) (input : List UInt8) (expectedDecodedLen : Nat)
    (dict : List UInt8) : Run (Except DecompressError BlockValidation) :=
  validateBlockInternal t input expectedDecodedLen dict.length

end Lz4rip.Impl
