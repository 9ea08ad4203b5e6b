import Lz4rip.Impl.Decode.Primitives

/-!
# `lz4rip-decode`, `decompress.rs` and `out.rs`: the block decoder

`decompressBodyWith` is `decompress_body`, with the flag that turns the fast
loop on as an argument; `decompressBody` computes it as the code does. An
iteration of the fast loop is `fastToken`, with one definition for each of its
branches; one token on the general path is `generalToken`.
-/

namespace Lz4rip.Impl

/-- Length extension byte that means another extension byte follows. -/
abbrev EXT_MORE : UInt8 := 255

/-- Bytes in a token, in a match offset and in one length extension. -/
abbrev TOKEN_LEN : Nat := 1
abbrev OFFSET_LEN : Nat := 2
abbrev EXT_LEN : Nat := 1

/-- Longest literal a token encodes without an extension byte. -/
abbrev SHORT_LITERAL_MAX : Nat := RUN_MASK - 1

/-- Fast-loop input window. -/
abbrev FAST_IN : Nat := TOKEN_LEN + SHORT_LITERAL_MAX + OFFSET_LEN + EXT_LEN

/-- Longest literal run the general path copies in `LONG_CHUNK` steps. -/
abbrev WILD_LITERAL_MAX : Nat := 256

/-- Output buffer and write position for the decoder. -/
structure OutSink where
  output : List UInt8
  pos : Nat
  deriving DecidableEq, Repr

def OutSink.capacity (s : OutSink) : Nat := s.output.length

/-- Appends `data`; panics if it does not fit. -/
def OutSink.extendFromSlice (t : Target) (s : OutSink) (data : List UInt8) : Run OutSink := do
  let dst ← Run.chunk s.output s.pos data.length
  let copied ← sliceCopy t.avx data dst
  return ⟨store s.output s.pos copied, s.pos + data.length⟩

/-! ## Reading lengths and offsets

`input.get(pos)` finds a byte before `pos` is advanced past it, so the
positions stay within the input. -/

/-- The loop of `readIntegerBounded`, over the bytes from the input position
on. -/
def readIntegerLoop (t : Target) (max n pos : Nat) :
    List UInt8 → Except DecompressError (Nat × Nat)
  | [] => .error .expectedAnotherByte
  | extra :: rest =>
    if n + extra.toNat < t.modulus then
      if extra ≠ EXT_MORE then .ok (n + extra.toNat, pos + EXT_LEN)
      else if n + extra.toNat > max then .ok (n + extra.toNat, pos + EXT_LEN)
      else readIntegerLoop t max (n + extra.toNat) (pos + EXT_LEN) rest
    else .error .literalOutOfBounds

/-- Reads a variable-length integer, bailing out once it exceeds `max`: the
value and the position past it. -/
def readIntegerBounded (t : Target) (input : List UInt8) (inputPos max : Nat) :
    Except DecompressError (Nat × Nat) :=
  readIntegerLoop t max 0 inputPos (input.drop inputPos)

def readInteger (t : Target) (input : List UInt8) (inputPos : Nat) :
    Except DecompressError (Nat × Nat) :=
  readIntegerBounded t input inputPos t.usizeMax

/-- A length whose nibble is all ones is extended. -/
def extendLength (t : Target) (input : List UInt8) (inputPos base maxExtension : Nat) :
    Except DecompressError (Nat × Nat) :=
  match readIntegerBounded t input inputPos maxExtension with
  | .error e => .error e
  | .ok (n, pos) => if base + n < t.modulus then .ok (base + n, pos) else .error .literalOutOfBounds

/-- Parses the literal length encoded by `token`. -/
def readLiteralLength (t : Target) (input : List UInt8) (inputPos : Nat) (token : UInt8)
    (maxExtension : Nat) : Except DecompressError (Nat × Nat) :=
  let literalLength := token.toNat / 16
  if literalLength = RUN_MASK then extendLength t input inputPos literalLength maxExtension
  else .ok (literalLength, inputPos)

/-- Parses the match length encoded by `token`. -/
def readMatchLength (t : Target) (input : List UInt8) (inputPos : Nat) (token : UInt8)
    (maxExtension : Nat) : Except DecompressError (Nat × Nat) :=
  let matchLength := MINMATCH + token.toNat % 16
  if matchLength = MINMATCH + ML_MASK then extendLength t input inputPos matchLength maxExtension
  else .ok (matchLength, inputPos)

/-- Parses a nonzero match offset. -/
def readOffset (input : List UInt8) (inputPos : Nat) : Except DecompressError (Nat × Nat) :=
  match input.drop inputPos with
  | lo :: hi :: _ =>
    let offset := leNat [lo, hi]
    if offset = 0 then .error .offsetZero else .ok (offset, inputPos + OFFSET_LEN)
  | _ => .error .expectedAnotherByte

def hasHeadroom (t : Target) (pos len slack cap : Nat) : Run Bool :=
  match t.width with
  | .w32 => return decide (pos + len < t.modulus ∧ pos + len + slack < t.modulus ∧
      pos + len + slack ≤ cap)
  | .w64 => do
    let e ← t.add pos len
    let e ← t.add e slack
    return decide (e ≤ cap)

def lenExceedsCapacity (t : Target) (pos len cap : Nat) : Run Bool :=
  match t.width with
  | .w32 => return decide (len > cap - pos)
  | .w64 => do
    let e ← t.add pos len
    return decide (e > cap)

def expectedOutputSize (t : Target) (pos len : Nat) : Run Nat :=
  match t.width with
  | .w32 => return min (pos + len) t.usizeMax
  | .w64 => t.add pos len

/-! ## The general path -/

/-- Where a token leads: the input position and the sink before the next one,
or the result that the decoder stops with. -/
abbrev TokenFlow := Run.Flow (Nat × OutSink) (Except DecompressError Unit × OutSink)

/-- The match copy strategies of the general path. -/
def copyMatch (t : Target) (out : List UInt8) (start pos offset matchLength : Nat) :
    Run (List UInt8 × Nat) := do
  let cap := out.length
  if (decide (offset ≥ WIDE_CHUNK) && (← hasHeadroom t pos matchLength LONG_CHUNK cap)) then
    wildCopyMatch32 out start pos matchLength
  else if (decide (offset ≥ WIDE_CHUNK) && (← hasHeadroom t pos matchLength WIDE_CHUNK cap)) then
    wildCopyMatch16 out start pos matchLength
  else if (decide (offset ≥ MATCH_CHUNK) && (← hasHeadroom t pos matchLength MATCH_CHUNK cap)) then
    wildCopyMatch8 out start pos matchLength
  else if (decide (MIN_COPY_OFFSET ≤ offset ∧ offset < MATCH_CHUNK) &&
      (← hasHeadroom t pos matchLength MATCH_CHUNK cap)) then
    wildCopyMatchShortOffset out pos offset matchLength
  else if matchLength > offset then
    if offset < MIN_COPY_OFFSET then do
      let val ← Run.index out start
      let out ← Run.storeAt out pos (List.replicate matchLength val)
      return (out, pos + matchLength)
    else copyWithinOverlapping out start pos matchLength offset
  else copyWithinNonoverlap out start pos matchLength

/-- Copies the part of a match that lies in the dictionary: how much it was,
and the sink after it. -/
def copyFromDict (t : Target) (output : OutSink) (extDict : List UInt8)
    (offset matchLength : Nat) : Run (Except DecompressError (Nat × OutSink)) := do
  Run.assert (offset > output.pos)
  let back ← Run.sub offset output.pos
  if extDict.length < back then return .error .offsetOutOfBounds
  else
    let dictOffset := extDict.length - back
    let dictMatchLength := min matchLength (extDict.length - dictOffset)
    let extMatch ← Run.chunk extDict dictOffset dictMatchLength
    let output ← output.extendFromSlice t extMatch
    return .ok (dictMatchLength, output)

/-- The literal run of a token, at `inputPos`. -/
def copyLiteralRun (t : Target) (input : List UInt8) (inputPos : Nat) (output : OutSink)
    (literalLength : Nat) : Run (Except DecompressError OutSink) :=
  if literalLength = 0 then return .ok output
  else do
    if ← lenExceedsCapacity t inputPos literalLength input.length then
      return .error .literalOutOfBounds
    else if ← lenExceedsCapacity t output.pos literalLength output.capacity then do
      let expected ← expectedOutputSize t output.pos literalLength
      return .error (.outputTooSmall expected output.capacity)
    else if (decide (literalLength ≤ WILD_LITERAL_MAX) &&
        (← hasHeadroom t inputPos literalLength LONG_CHUNK input.length)) &&
        (← hasHeadroom t output.pos literalLength LONG_CHUNK output.output.length) then do
      let (out, pos) ← wildCopyLiterals input inputPos output.output output.pos literalLength
      return .ok ⟨out, pos⟩
    else do
      let (out, pos) ← copyFromSrc input inputPos output.output output.pos literalLength
      return .ok ⟨out, pos⟩

/-- The match of a token, after its literals; `dict` is the dictionary when
`USE_DICT` is set. -/
def copyTokenMatch (t : Target) (useDict : Bool) (output : OutSink) (extDict : List UInt8)
    (offset matchLength : Nat) : Run (Except DecompressError OutSink) := do
  if useDict ∧ offset > output.pos then
    match ← copyFromDict t output extDict offset matchLength with
    | .error e => return .error e
    | .ok (copied, output) =>
      if copied = matchLength then return .ok output
      else do
        let matchLength ← Run.sub matchLength copied
        finish output matchLength
  else finish output matchLength
where
  /-- The part of the match that lies in the output. -/
  finish (output : OutSink) (matchLength : Nat) : Run (Except DecompressError OutSink) := do
    if output.pos < offset then return .error .offsetOutOfBounds
    else do
      let (out, pos) ← copyMatch t output.output (output.pos - offset) output.pos offset matchLength
      return .ok ⟨out, pos⟩

/-- The rest of a token after its literal run. -/
def generalMatch (t : Target) (useDict : Bool) (input : List UInt8) (inputPos : Nat)
    (token : UInt8) (output : OutSink) (extDict : List UInt8) : Run TokenFlow :=
  match readOffset input inputPos with
  | .error e => return .done (.error e, output)
  | .ok (offset, inputPos) =>
    match readMatchLength t input inputPos token output.capacity with
    | .error e => return .done (.error e, output)
    | .ok (matchLength, inputPos) => do
      if ← lenExceedsCapacity t output.pos matchLength output.capacity then do
        let expected ← expectedOutputSize t output.pos matchLength
        return .done (.error (.outputTooSmall expected output.capacity), output)
      else
        match ← copyTokenMatch t useDict output extDict offset matchLength with
        | .error e => return .done (.error e, output)
        | .ok output => return .next (inputPos, output)

/-- One token of any kind, with checked reads. -/
def generalToken (t : Target) (useDict : Bool) (input : List UInt8) (extDict : List UInt8)
    (inputPos : Nat) (output : OutSink) : Run TokenFlow :=
  match input[inputPos]? with
  | none => return .done (.error .expectedAnotherByte, output)
  | some token =>
    match readLiteralLength t input (inputPos + TOKEN_LEN) token output.capacity with
    | .error e => return .done (.error e, output)
    | .ok (literalLength, inputPos) => do
      match ← copyLiteralRun t input inputPos output literalLength with
      | .error e => return .done (.error e, output)
      | .ok output =>
        let inputPos ← t.add inputPos literalLength
        if inputPos ≥ input.length then return .done (.ok (), output)
        else generalMatch t useDict input inputPos token output extDict

/-! ## The fast loop -/

/-- How the fast loop is left: for the general path, with nothing of the next
token consumed, or with the end of the block. -/
inductive FastExit where
  | leave (inputPos : Nat) (output : OutSink)
  | finished (output : OutSink)

abbrev FastFlow := Run.Flow (Nat × OutSink) FastExit

/-- The last sequence of a block: `literalLength` literals at `start`. -/
def fastLastLiterals (input : List UInt8) (output : OutSink) (start op literalLength : Nat) :
    Run FastFlow := do
  let (out, stop) ← copyFromSrc input start output.output op literalLength
  return .done (.finished ⟨out, stop⟩)

/-- 270 or more literals: decoded only as the last sequence. -/
def fastLongestLiteral (t : Target) (input : List UInt8) (inputPos ip : Nat) (output : OutSink)
    (op : Nat) : Run FastFlow :=
  let leave : Run FastFlow := return .done (.leave inputPos output)
  match readIntegerBounded t input (ip + TOKEN_LEN) output.output.length with
  | .error _ => leave
  | .ok (n, start) => do
    let literalLength ← t.add RUN_MASK n
    let stop ← t.add start literalLength
    if stop = input.length then do
      let outStop ← t.add op literalLength
      if outStop ≤ output.output.length then
        fastLastLiterals input output start op literalLength
      else leave
    else leave

/-- A literal run with a one-byte length extension `extra`, then a short match
with offset at least `MATCH_CHUNK`. -/
def fastLongLiteral (t : Target) (input : List UInt8) (inputPos ip : Nat) (output : OutSink)
    (op : Nat) (token extra : UInt8) : Run FastFlow := do
  let leave : Run FastFlow := return .done (.leave inputPos output)
  let literalLength := RUN_MASK + extra.toNat
  let literalStart := ip + TOKEN_LEN + EXT_LEN
  let literalEnd ← t.add literalStart literalLength
  let dst ← t.add op literalLength
  if literalEnd = input.length ∧ dst ≤ output.output.length then
    fastLastLiterals input output literalStart op literalLength
  else do
    let inEnd ← t.add literalEnd LONG_CHUNK
    let outEnd ← t.add dst LONG_CHUNK
    if inEnd > input.length ∨ outEnd > output.output.length then leave
    else do
      let offset := leNat (← Run.chunk input literalEnd OFFSET_LEN)
      let matchNib := token.toNat % 16
      if matchNib = ML_MASK ∨ offset < MATCH_CHUNK ∨ offset > dst then leave
      else do
        let out ← copyLiterals32 input literalStart output.output op literalLength
        let (out, stop) ← wildMatchCopy18 out dst offset (MINMATCH + matchNib)
        return .next (literalEnd + OFFSET_LEN, ⟨out, stop⟩)

/-- A literal run and a match that both fit the token. -/
def fastShortMatch (useDict : Bool) (extDict : List UInt8) (inputPos ip : Nat) (output : OutSink)
    (op dst : Nat) (window : List UInt8) (literalLength offset matchNib : Nat) :
    Run FastFlow := do
  let leave : Run FastFlow := return .done (.leave inputPos output)
  let matchLength := MINMATCH + matchNib
  let nextPos := ip + TOKEN_LEN + OFFSET_LEN + literalLength
  if offset ≥ MATCH_CHUNK ∧ offset ≤ dst then do
    let out ← Run.storeAt output.output op (← Run.chunk window TOKEN_LEN WIDE_CHUNK)
    let (out, stop) ← wildMatchCopy18 out dst offset matchLength
    return .next (nextPos, ⟨out, stop⟩)
  else if useDict ∧ offset > dst then do
    -- The whole match wildcopy comes from the dictionary.
    let back ← Run.sub offset dst
    if back ≥ SHORT_MATCH_MAX ∧ back ≤ extDict.length then do
      let out ← Run.storeAt output.output op (← Run.chunk window TOKEN_LEN WIDE_CHUNK)
      let src ← Run.chunk extDict (extDict.length - back) SHORT_MATCH_MAX
      let out ← Run.storeAt out dst src
      return .next (nextPos, ⟨out, dst + matchLength⟩)
    else leave
  else leave

/-- A match with a one-byte length extension and an offset of at least
`WIDE_CHUNK`. -/
def fastLongMatch (t : Target) (inputPos ip : Nat) (output : OutSink) (op dst : Nat)
    (window : List UInt8) (literalLength offset : Nat) : Run FastFlow := do
  let leave : Run FastFlow := return .done (.leave inputPos output)
  let extra ← Run.index window (TOKEN_LEN + OFFSET_LEN + literalLength)
  if extra = EXT_MORE ∨ offset < WIDE_CHUNK ∨ offset > dst then leave
  else do
    let matchLength := MINMATCH + ML_MASK + extra.toNat
    let stop ← t.add dst matchLength
    let outEnd ← t.add stop LONG_CHUNK
    if outEnd > output.output.length then leave
    else do
      let out ← Run.storeAt output.output op (← Run.chunk window TOKEN_LEN WIDE_CHUNK)
      let out ← wildCopyMatchLong out dst offset matchLength
      return .next (ip + TOKEN_LEN + OFFSET_LEN + EXT_LEN + literalLength, ⟨out, stop⟩)

/-- A token whose literal run fits it. -/
def fastShortLiteral (t : Target) (useDict : Bool) (extDict : List UInt8) (inputPos ip : Nat)
    (output : OutSink) (op : Nat) (window : List UInt8) (token : UInt8) (literalLength : Nat) :
    Run FastFlow := do
  let dst ← t.add op literalLength
  let outEnd ← t.add dst SHORT_MATCH_MAX
  if outEnd > output.output.length then return .done (.leave inputPos output)
  else do
    let offset := leNat (← Run.chunk window (TOKEN_LEN + literalLength) OFFSET_LEN)
    let matchNib := token.toNat % 16
    if matchNib ≠ ML_MASK then
      fastShortMatch useDict extDict inputPos ip output op dst window literalLength offset matchNib
    else fastLongMatch t inputPos ip output op dst window literalLength offset

/-- One iteration of the fast loop. -/
def fastToken (t : Target) (useDict : Bool) (input extDict : List UInt8) (s : Nat × OutSink) :
    Run FastFlow := do
  let (inputPos, output) := s
  let ip := idx inputPos
  let op := idx output.pos
  let inEnd ← t.add ip FAST_IN
  if inEnd > input.length then return .done (.leave inputPos output)
  else do
    let window ← Run.chunk input ip FAST_IN
    let token ← Run.index window 0
    let literalLength := token.toNat / 16
    if literalLength = RUN_MASK then do
      let extra ← Run.index window TOKEN_LEN
      if extra = EXT_MORE then fastLongestLiteral t input inputPos ip output op
      else fastLongLiteral t input inputPos ip output op token extra
    else fastShortLiteral t useDict extDict inputPos ip output op window token literalLength

/-! ## The decoder -/

/-- One iteration of the outer loop: the fast loop, then one token. -/
def decompressStep (t : Target) (useDict fast : Bool) (input extDict : List UInt8)
    (s : Nat × OutSink) : Run TokenFlow := do
  let exit ← if fast then Run.loop (fastToken t useDict input extDict) (input.length + 1) s
    else pure (FastExit.leave s.1 s.2)
  match exit with
  | .finished output => return .done (.ok (), output)
  | .leave inputPos output => generalToken t useDict input extDict inputPos output

/-- `decompress_body` with its `fast` flag as an argument. -/
def decompressBodyWith (t : Target) (useDict fast : Bool) (input : List UInt8) (output : OutSink)
    (extDict : List UInt8) : Run (Except DecompressError Nat × OutSink) := do
  Run.assert (output.pos ≤ output.capacity)
  let (r, out) ← Run.loop (decompressStep t useDict fast input extDict) (input.length + 1)
    (0, output)
  match r with
  | .error e => return (.error e, out)
  | .ok () => do
    let n ← Run.sub out.pos output.pos
    return (.ok n, out)

/-- Whether the fast loop runs: its positions are 32-bit. -/
def fastEnabled (input : List UInt8) (output : OutSink) : Bool :=
  decide (input.length ≤ U32_MAX ∧ output.capacity ≤ U32_MAX)

def decompressBody (t : Target) (useDict : Bool) (input : List UInt8) (output : OutSink)
    (extDict : List UInt8) : Run (Except DecompressError Nat × OutSink) :=
  decompressBodyWith t useDict (fastEnabled input output) input output extDict

/-- `decompress_internal` and `decompress_loop`: the body on a local sink,
whose position is written back, also on error. -/
def decompressInternal (t : Target) (useDict : Bool) (input : List UInt8) (output : OutSink)
    (extDict : List UInt8) : Run (Except DecompressError Nat × OutSink) := do
  let (r, sink) ← decompressBody t useDict input ⟨output.output, output.pos⟩ extDict
  return (r, ⟨sink.output, sink.pos⟩)

def decompressIntoSinkWithDict (t : Target) (useDict : Bool) (input : List UInt8)
    (output : SliceSink) (extDict : List UInt8) :
    Run (Except DecompressError Nat × SliceSink) := do
  let (r, sink) ← decompressInternal t useDict input ⟨output.output, output.pos⟩ extDict
  return (r, ⟨sink.output, sink.pos⟩)

/-- The result, and the output buffer after the call. -/
def decompressInto (t : Target) (input output : List UInt8) :
    Run (Except DecompressError Nat × List UInt8) := do
  let (r, sink) ← decompressInternal t false input ⟨output, 0⟩ []
  return (r, sink.output)

def decompressIntoWithDict (t : Target) (input output dict : List UInt8) :
    Run (Except DecompressError Nat × List UInt8) := do
  let (r, sink) ← decompressInternal t true input ⟨output, 0⟩ dict
  return (r, sink.output)

/-! ## Appending to a vector -/

/-- Decodes into zero-filled new bytes of the vector `output`, then truncates: the
result, and the vector after the call. `reserve_exact` panics where a vector would
have more than `isize::MAX` bytes. -/
def decompressAppendInternal (t : Target) (useDict : Bool) (input output : List UInt8)
    (maxSize : Nat) (extDict : List UInt8) : Run (Except DecompressError Nat × List UInt8) := do
  Run.assert (output.length + maxSize ≤ t.isizeMax)
  let start := output.length
  let len ← t.add start maxSize
  let output := output ++ List.replicate (len - output.length) 0
  let (result, sink) ← decompressInternal t useDict input ⟨output.drop start, 0⟩ extDict
  let output := output.take start ++ sink.output
  let written := match result with
    | .ok n => n
    | .error _ => 0
  return (result, output.take (start + written))

def decompressAppend (t : Target) (input output : List UInt8) (maxSize : Nat) :
    Run (Except DecompressError Nat × List UInt8) :=
  decompressAppendInternal t false input output maxSize []

/-- A call that appends, on a new vector: the vector, if it succeeds. -/
def appendToNew (append : List UInt8 → Run (Except DecompressError Nat × List UInt8)) :
    Run (Except DecompressError (List UInt8)) := do
  let (r, decompressed) ← append []
  return r.map fun _ => decompressed

def decompress (t : Target) (input : List UInt8) (uncompressedSize : Nat) :
    Run (Except DecompressError (List UInt8)) :=
  appendToNew fun decompressed => decompressAppend t input decompressed uncompressedSize

/-- A block decompressor that borrows its dictionary. -/
structure DecompressorRef where
  dict : List UInt8

namespace DecompressorRef

def withDict (dict : List UInt8) : DecompressorRef := ⟨dict⟩

def decompressInto (d : DecompressorRef) (t : Target) (input output : List UInt8) :
    Run (Except DecompressError Nat × List UInt8) := do
  let (r, sink) ← decompressInternal t true input ⟨output, 0⟩ d.dict
  return (r, sink.output)

def decompressAppend (d : DecompressorRef) (t : Target) (input output : List UInt8)
    (maxSize : Nat) : Run (Except DecompressError Nat × List UInt8) :=
  decompressAppendInternal t true input output maxSize d.dict

def decompress (d : DecompressorRef) (t : Target) (input : List UInt8) (uncompressedSize : Nat) :
    Run (Except DecompressError (List UInt8)) :=
  appendToNew fun decompressed => d.decompressAppend t input decompressed uncompressedSize

end DecompressorRef

/-- A block decompressor that owns its dictionary. -/
structure Decompressor where
  dict : List UInt8

namespace Decompressor

def new : Decompressor := ⟨[]⟩

def withDict (dict : List UInt8) : Decompressor := ⟨dict⟩

def decompress (d : Decompressor) (t : Target) (input : List UInt8) (uncompressedSize : Nat) :
    Run (Except DecompressError (List UInt8)) :=
  (DecompressorRef.withDict d.dict).decompress t input uncompressedSize

def decompressInto (d : Decompressor) (t : Target) (input output : List UInt8) :
    Run (Except DecompressError Nat × List UInt8) :=
  (DecompressorRef.withDict d.dict).decompressInto t input output

def decompressAppend (d : Decompressor) (t : Target) (input output : List UInt8) (maxSize : Nat) :
    Run (Except DecompressError Nat × List UInt8) :=
  (DecompressorRef.withDict d.dict).decompressAppend t input output maxSize

end Decompressor

end Lz4rip.Impl
