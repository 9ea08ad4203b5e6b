import Lz4rip.Impl.Encode.Emit

/-!
# `lz4rip-encode`, `compress.rs`: the block encoder

`compressInternal` and `compressWithDictTable` are the two block loops. Each
alternates a search (`searchStep`, `dictSearchStep`) with a match, whose part
that both share is `emitMatch`. The constant generics of `compress_internal`
are a `Mode`.
-/

namespace Lz4rip.Impl

/-- Inputs up to this size reuse the no-dict hash table across calls. -/
abbrev EPOCH_THRESHOLD : Nat := 1024

/-- Skip acceleration: the step grows by 1 every `1 << N` non-matches. -/
abbrev INCREASE_STEPSIZE_BITSHIFT : Nat := 3

/-- Inputs up to this size use the dict table read-only. -/
abbrev DICT_READONLY_LIMIT : Nat := 256

/-- Dict inputs up to this size reuse the main table across calls. -/
abbrev DICT_EPOCH_THRESHOLD : Nat := 1024

/-- `USE_DICT`, `HAS_OFFSET`, `READONLY` and `NEAR`. -/
structure Mode where
  useDict : Bool
  hasOffset : Bool
  readonly : Bool
  near : Bool
  deriving DecidableEq, Repr

/-- Paths with a stream offset and no dict carry only the hash of the next
position, not its bytes. -/
def Mode.carryHash (m : Mode) : Bool := m.hasOffset && !m.useDict

/-- `x as u16`. -/
def asU16 (x : Nat) : Nat := x % 2 ^ 16

/-- `ensure_stream_bounds` on 32-bit targets, `assert_stream_bounds` on the
others. -/
def streamBounds (t : Target) (inputStreamOffset inputLen extDictLen : Nat) :
    Run (Except CompressError Unit) :=
  let span := inputStreamOffset + inputLen + extDictLen
  match t.width with
  | .w32 =>
    if extDictLen > inputStreamOffset then return .error .inputTooLarge
    else if span < t.modulus ∧ ¬ span > t.isizeMax then return .ok ()
    else return .error .inputTooLarge
  | .w64 => do
    Run.assert (extDictLen ≤ inputStreamOffset)
    Run.assert (span < t.modulus ∧ span ≤ t.isizeMax)
    return .ok ()

/-- The loop of `backtrackMatch`. -/
def backtrackLoop (input : List UInt8) (literalStart : Nat) (source : List UInt8)
    (s : Nat × Nat) : Run (Run.Flow (Nat × Nat) (Nat × Nat)) := do
  let (cur, candidate) := s
  if candidate > 0 ∧ cur > literalStart then
    let a ← Run.index input (cur - 1)
    let b ← Run.index source (candidate - 1)
    return if a = b then .next (cur - 1, candidate - 1) else .done (cur, candidate)
  else return .done (cur, candidate)

/-- Extends a match backwards, down to `literalStart`. -/
def backtrackMatch (input : List UInt8) (cur literalStart : Nat) (source : List UInt8)
    (candidate : Nat) : Run (Nat × Nat) :=
  Run.loop (backtrackLoop input literalStart source) (cur + 1) (cur, candidate)

/-- Whether a candidate that agrees on four bytes is near enough. -/
def withinDistance (near : Bool) (at' from' : Nat) : Run Bool :=
  if near then return true else do
    return decide ((← Run.sub at' from') ≤ MAX_DISTANCE)

section

variable {w N : Nat}

/-- Inserts the position `pos`, counted from `base`, unless the table is
`READONLY`. -/
def insertAt (t : Target) (readonly : Bool) (table : HashTable w N) (hash pos base : Nat) :
    Run (HashTable w N) :=
  if readonly then pure table else do table.putAt hash (← t.add pos base)

/-- What both block loops do with a match at `cur`: extend it, insert the
position two bytes before its end, and write the sequence. The position of
input byte `i` in the table is `i + base`. -/
def emitMatch (t : Target) (readonly : Bool) (base : Nat) (input source : List UInt8)
    (table : HashTable w N) (rest : Rest) (literalStart cur candidate offset : Nat) :
    Run (HashTable w N × Rest × Nat) := do
  let (cur, candidate) ← backtrackMatch input cur literalStart source candidate
  let litLen ← Run.sub cur literalStart
  let (duplicateLength, cur) ← countSameBytes t input (cur + MINMATCH) source
    (candidate + MINMATCH) END_OFFSET
  let limit ← Run.sub input.length 8
  let at' ← Run.sub cur 2
  let hash ← hashN t N (← rd64Upto t input at' limit)
  let table ← insertAt t readonly table hash at' base
  let rest ← emitSequence t rest input literalStart litLen offset duplicateLength
  return (table, rest, cur)

/-! ## Searching -/

/-- The state of a search: where it is, and the bytes read there with their
hash. -/
structure Search (w N : Nat) where
  table : HashTable w N
  cur : Nat
  nonMatchCount : Nat
  forwardBytes : Nat
  forwardHash : Nat

/-- How a search is left: at the end of the block, or with a match of the bytes
at `cur` and the bytes of `source` at `candidate`. -/
inductive SearchExit (w N : Nat) where
  | ended (table : HashTable w N)
  | found (search : Search w N) (source : List UInt8) (candidate offset : Nat)

/-- The hash of the bytes at `cur`: carried along, or computed. -/
def Search.hash (t : Target) (m : Mode) (s : Search w N) : Run Nat :=
  if m.carryHash then pure s.forwardHash else hashN t N s.forwardBytes

/-- The four bytes at `cur`, read there as `bytes`. -/
def currBytes (t : Target) (m : Mode) (input : List UInt8) (cur nextCur bytes : Nat) : Run Nat :=
  if m.carryHash then rd32 t input (min cur nextCur) else pure (first4 t bytes)

/-- Whether a candidate is a position of the input. -/
def inInput (m : Mode) (cur nextCur inputPos : Nat) : Run Bool :=
  if inputPos < nextCur then withinDistance (!m.carryHash) cur inputPos else pure false

/-- Compares the four bytes at a candidate with the ones at `cur`, and then
tests the distance of the two positions. -/
def probe (t : Target) (near : Bool) (source : List UInt8) (candidate : Nat) (currBytes : Run Nat)
    (at' from' nextCur : Nat) (s : Search w N) : Run (Run.Flow (Search w N) (SearchExit w N)) := do
  let candBytes ← rd32 t source candidate
  if candBytes = (← currBytes) then
    if ← withinDistance near at' from' then
      let distance ← Run.sub at' from'
      return .done (.found s source candidate (asU16 distance))
    else return .next { s with cur := nextCur }
  else return .next { s with cur := nextCur }

/-- One position of the search of `compress_internal`. -/
def searchStep (t : Target) (m : Mode) (input extDict : List UInt8)
    (inputStreamOffset extDictStreamOffset endPosCheck : Nat) (s : Search w N) :
    Run (Run.Flow (Search w N) (SearchExit w N)) := do
  let step := s.nonMatchCount / 2 ^ INCREASE_STEPSIZE_BITSHIFT
  let nonMatchCount ← t.add s.nonMatchCount 1
  let cur := s.cur
  let nextCur ← t.add cur step
  if nextCur > endPosCheck + 1 then return .done (.ended s.table)
  else
    let bytes := s.forwardBytes
    let hash ← s.hash t m
    let candidate ← s.table.getAt hash
    let forwardBytes ← rd64 t input nextCur
    let forwardHash ← hashN t N forwardBytes
    let table ← insertAt t m.readonly s.table hash cur inputStreamOffset
    Run.assert (m.readonly ∨ candidate ≤ inputStreamOffset + cur)
    let s : Search w N := ⟨table, cur, nonMatchCount, forwardBytes, forwardHash⟩
    let currBytes := currBytes t m input cur nextCur bytes
    let inputPos := t.wrappingSub candidate inputStreamOffset
    if m.readonly then
      if candidate + 4 > extDict.length then return .next { s with cur := nextCur }
      else
        let distance ← Run.sub (inputStreamOffset + cur) candidate
        Run.assert (distance ≤ MAX_DISTANCE)
        Run.assert (extDictStreamOffset = 0)
        probe t true extDict candidate currBytes (inputStreamOffset + cur) candidate nextCur s
    else if ← inInput m cur nextCur inputPos then
      probe t m.near input inputPos currBytes cur inputPos nextCur s
    else if m.useDict ∧ candidate ≥ extDictStreamOffset ∧
        candidate - extDictStreamOffset + 4 ≤ extDict.length then
      probe t m.near extDict (candidate - extDictStreamOffset) currBytes (inputStreamOffset + cur)
        candidate nextCur s
    else return .next { s with cur := nextCur }

/-! ## The block loop -/

/-- The state of the block loop: what is written, where the literals not yet
written start, and where the next search starts. -/
structure BlockState (w N : Nat) where
  table : HashTable w N
  rest : Rest
  literalStart : Nat
  cur : Nat
  forwardBytes : Nat
  forwardHash : Nat

/-- A match to write, and the block loop's state before it. -/
structure MatchState (w N : Nat) where
  block : BlockState w N
  source : List UInt8
  candidate : Nat
  offset : Nat

/-- Whether the bytes at `rc` make another match right after one. -/
def isRematch (t : Target) (m : Mode) (input : List UInt8) (cur rc bytes : Nat) : Run Bool :=
  if rc < cur then do
    if first4 t bytes = (← rd32 t input rc) then withinDistance m.near cur rc else return false
  else return false

/-- One match of `compress_internal`, and the test for another one right after
it. -/
def matchLoopStep (t : Target) (m : Mode) (input : List UInt8)
    (inputStreamOffset endPosCheck : Nat) (s : MatchState w N) :
    Run (Run.Flow (MatchState w N) (BlockState w N)) := do
  let (table, rest, cur) ← emitMatch t m.readonly inputStreamOffset input s.source s.block.table
    s.block.rest s.block.literalStart s.block.cur s.candidate s.offset
  if ¬ m.useDict ∧ cur ≤ endPosCheck then
    let bytes ← rd64 t input cur
    let hash ← hashN t N bytes
    let rematch ← table.getAt hash
    let rc := t.wrappingSub rematch inputStreamOffset
    if ← isRematch t m input cur rc bytes then
      let table ← table.putAt hash (← t.add cur inputStreamOffset)
      let distance ← Run.sub cur rc
      return .next ⟨⟨table, rest, cur, cur, s.block.forwardBytes, s.block.forwardHash⟩, input, rc,
        asU16 distance⟩
    else return .done ⟨table, rest, cur, cur, bytes, hash⟩
  else if cur ≤ endPosCheck then
    let bytes ← rd64 t input cur
    let hash ← hashN t N bytes
    return .done ⟨table, rest, cur, cur, bytes, hash⟩
  else return .done ⟨table, rest, cur, cur, s.block.forwardBytes, s.block.forwardHash⟩

/-- One iteration of the outer loop of `compress_internal`: a search, then the
matches it leads to, or the last literals. -/
def blockStep (t : Target) (m : Mode) (input extDict : List UInt8)
    (inputStreamOffset extDictStreamOffset endPosCheck : Nat) (s : BlockState w N) :
    Run (Run.Flow (BlockState w N) (Rest × HashTable w N)) := do
  let exit ← Run.loop (searchStep t m input extDict inputStreamOffset extDictStreamOffset
    endPosCheck) (input.length + 1)
    ⟨s.table, s.cur, 2 ^ INCREASE_STEPSIZE_BITSHIFT, s.forwardBytes, s.forwardHash⟩
  match exit with
  | .ended table => return .done (← handleLastLiterals t s.rest input s.literalStart, table)
  | .found f source candidate offset =>
    return .next (← Run.loop (matchLoopStep t m input inputStreamOffset endPosCheck)
      (input.length + 1)
      ⟨⟨f.table, s.rest, s.literalStart, f.cur, f.forwardBytes, f.forwardHash⟩, source, candidate,
        offset⟩)

/-- Inserts position 0 of a stream. -/
def insertFirst (t : Target) (readonly start : Bool) (input : List UInt8) (table : HashTable w N) :
    Run (HashTable w N) :=
  if start then do
    let hash ← HashTable.getHashAt t N input 0
    insertAt t readonly table hash 0 0
  else return table

/-- `compress_internal` from the test for a short input on. -/
def compressBlock (t : Target) (m : Mode) (input : List UInt8) (inputPos : Nat) (rest : Rest)
    (table : HashTable w N) (extDict : List UInt8) (inputStreamOffset : Nat) :
    Run (Rest × HashTable w N) := do
  if input.length < LZ4_MIN_LENGTH ∨ input.length - inputPos < LZ4_MIN_LENGTH then
    return (← handleLastLiterals t rest input inputPos, table)
  else
    let extDictStreamOffset ← Run.sub inputStreamOffset extDict.length
    let endPosCheck ← Run.sub input.length MFLIMIT
    let start := decide (inputPos = 0 ∧ inputStreamOffset = 0)
    let table ← insertFirst t m.readonly start input table
    let cur := if start then 1 else inputPos
    let forwardBytes ← rd64 t input cur
    let forwardHash ← hashN t N forwardBytes
    Run.loop (blockStep t m input extDict inputStreamOffset extDictStreamOffset endPosCheck)
      (input.length + 1) ⟨table, rest, inputPos, cur, forwardBytes, forwardHash⟩

/-- Writes a block to a sink that has room for the largest block of `len`
bytes: the capacity test, and what `finish_output` does with the position. -/
def writeBlock (t : Target) (output : SliceSink) (table : HashTable w N) (len : Nat)
    (block : Rest → Run (Rest × HashTable w N)) :
    Run (Except CompressError Nat × SliceSink × HashTable w N) := do
  Run.assert (output.pos ≤ output.output.length)
  let rest := output.output.drop output.pos
  if rest.length < (← getMaximumOutputSize t len) then
    return (.error .outputTooSmall, output, table)
  else
    let (out, table) ← block ⟨[], rest⟩
    let written ← Run.sub rest.length out.rest.length
    return (.ok written,
      ⟨output.output.take output.pos ++ out.written ++ out.rest, output.pos + written⟩, table)

/-- The tests on the dictionary and the stream's extent. -/
def checkBounds (t : Target) (useDict : Bool) (input extDict : List UInt8)
    (inputStreamOffset : Nat) : Run (Except CompressError Unit) :=
  if useDict then do
    Run.assert (extDict.length ≤ WINDOW_SIZE)
    streamBounds t inputStreamOffset input.length extDict.length
  else do
    Run.assert (extDict = [])
    return .ok ()

/-- `compress_internal`: the result, and the sink and the table afterwards. -/
def compressInternal (t : Target) (m : Mode) (input : List UInt8) (inputPos : Nat)
    (output : SliceSink) (table : HashTable w N) (extDict : List UInt8) (inputStreamOffset : Nat) :
    Run (Except CompressError Nat × SliceSink × HashTable w N) := do
  Run.assert (inputPos ≤ input.length)
  match ← checkBounds t m.useDict input extDict inputStreamOffset with
  | .error e => return (.error e, output, table)
  | .ok () => do
    Run.assert (m.hasOffset ∨ inputStreamOffset = 0)
    Run.assert (m.readonly → m.useDict ∧ inputStreamOffset = extDict.length)
    Run.assert (m.readonly → extDict.length + input.length < U16_MAX)
    Run.assert (m.near → extDict.length + input.length ≤ MAX_DISTANCE + 1)
    let inputStreamOffset := if m.hasOffset then inputStreamOffset else 0
    writeBlock t output table (input.length - inputPos) fun rest =>
      compressBlock t m input inputPos rest table extDict inputStreamOffset

/-- `compress_into_sink_with_table`, with the caller's table. -/
def compressIntoSinkWithTable (t : Target) (useDict hasOffset readonly : Bool)
    (input : List UInt8) (inputPos : Nat) (output : SliceSink)
    (table : HashTableU32 DEFAULT_NODICT_ENTRIES) (extDict : List UInt8)
    (inputStreamOffset : Nat) :
    Run (Except CompressError Nat × SliceSink × HashTableU32 DEFAULT_NODICT_ENTRIES) :=
  compressInternal t ⟨useDict, hasOffset, readonly, false⟩ input inputPos output table extDict
    inputStreamOffset

/-- The loop that stores every third position of `input`, from position `i` on,
at `base`. -/
def seedLoop (t : Target) (input : List UInt8) (base : Nat) (s : HashTable w N × Nat) :
    Run (Run.Flow (HashTable w N × Nat) (HashTable w N)) := do
  let (table, i) := s
  if i + 8 ≤ input.length then
    let hash ← HashTable.getHashAt t N input i
    let table ← table.putAt hash (← t.add i base)
    return .next (table, i + 3)
  else return .done table

/-- `seed_table_with_input`. -/
def seedTableWithInput (t : Target) (table : HashTable w N) (input : List UInt8)
    (inputStreamOffset : Nat) : Run (HashTable w N) :=
  Run.loop (seedLoop t input inputStreamOffset) (input.length + 1) (table, 0)

/-- `init_dict`: the table, and the dictionary trimmed to the window. -/
def initDict (t : Target) (dict : HashTable w N) (dictData : List UInt8) :
    Run (HashTable w N × List UInt8) := do
  let dictData := if dictData.length > WINDOW_SIZE then
    dictData.drop (dictData.length - WINDOW_SIZE) else dictData
  return (← Run.loop (seedLoop t dictData 0) (dictData.length + 1) (dict, 0), dictData)

/-! ## The dual-table route -/

/-- The candidate of the dictionary's table, which is tried after the main
table's. -/
def dictProbe (t : Target) (input extDict : List UInt8) (dictTable : HashTable w N)
    (inputStreamOffset hash nextCur : Nat) (s : Search w N) :
    Run (Run.Flow (Search w N) (SearchExit w N)) := do
  let dictCandidate ← dictTable.getAt hash
  if dictCandidate + 4 ≤ extDict.length then
    let distance ← Run.sub (inputStreamOffset + s.cur) dictCandidate
    Run.assert (distance ≤ MAX_DISTANCE)
    probe t true extDict dictCandidate (rd32 t input (min s.cur nextCur))
      (inputStreamOffset + s.cur) dictCandidate nextCur s
  else return .next { s with cur := nextCur }

/-- One position of the search of `compress_with_dict_table`. -/
def dictSearchStep (t : Target) (input extDict : List UInt8) (dictTable : HashTable w N)
    (inputStreamOffset mainBase endPosCheck : Nat) (s : Search w N) :
    Run (Run.Flow (Search w N) (SearchExit w N)) := do
  let step := s.nonMatchCount / 2 ^ INCREASE_STEPSIZE_BITSHIFT
  let nonMatchCount ← t.add s.nonMatchCount 1
  let cur := s.cur
  let nextCur ← t.add cur step
  if nextCur > endPosCheck + 1 then return .done (.ended s.table)
  else
    let hash := s.forwardHash
    let forwardHash ← HashTable.getHashAt t N input nextCur
    let mainCandidate ← s.table.getAt hash
    let table ← s.table.putAt hash (← t.add cur mainBase)
    let s : Search w N := ⟨table, cur, nonMatchCount, s.forwardBytes, forwardHash⟩
    let mainPos := t.wrappingSub mainCandidate mainBase
    if mainCandidate ≥ mainBase ∧ mainPos < nextCur then
      Run.assert (mainPos < cur)
      match ← probe t true input mainPos (rd32 t input (min cur nextCur)) cur mainPos nextCur s with
      | .done exit => return .done exit
      | .next _ => dictProbe t input extDict dictTable inputStreamOffset hash nextCur s
    else dictProbe t input extDict dictTable inputStreamOffset hash nextCur s

/-- One iteration of the outer loop of `compress_with_dict_table`. -/
def dictBlockStep (t : Target) (input extDict : List UInt8) (dictTable : HashTable w N)
    (inputStreamOffset mainBase endPosCheck : Nat) (s : BlockState w N) :
    Run (Run.Flow (BlockState w N) (Rest × HashTable w N)) := do
  let exit ← Run.loop (dictSearchStep t input extDict dictTable inputStreamOffset mainBase
    endPosCheck) (input.length + 1)
    ⟨s.table, s.cur, 2 ^ INCREASE_STEPSIZE_BITSHIFT, s.forwardBytes, s.forwardHash⟩
  match exit with
  | .ended table => return .done (← handleLastLiterals t s.rest input s.literalStart, table)
  | .found f source candidate offset => do
    let (table, rest, cur) ← emitMatch t false mainBase input source f.table s.rest s.literalStart
      f.cur candidate offset
    if cur ≤ endPosCheck then
      let forwardHash ← HashTable.getHashAt t N input cur
      return .next ⟨table, rest, cur, cur, f.forwardBytes, forwardHash⟩
    else return .next ⟨table, rest, cur, cur, f.forwardBytes, f.forwardHash⟩

/-- `compress_with_dict_table` from the test for a short input on. -/
def compressBlockWithDictTable (t : Target) (input : List UInt8) (rest : Rest)
    (table dictTable : HashTable w N) (extDict : List UInt8) (inputStreamOffset mainBase : Nat) :
    Run (Rest × HashTable w N) := do
  if input.length < LZ4_MIN_LENGTH then
    return (← handleLastLiterals t rest input 0, table)
  else
    let endPosCheck ← Run.sub input.length MFLIMIT
    let hash ← HashTable.getHashAt t N input 0
    let table ← table.putAt hash mainBase
    let forwardHash ← HashTable.getHashAt t N input 1
    Run.loop (dictBlockStep t input extDict dictTable inputStreamOffset mainBase endPosCheck)
      (input.length + 1) ⟨table, rest, 0, 1, 0, forwardHash⟩

/-- `compress_with_dict_table`: dual-table compression. -/
def compressWithDictTable (t : Target) (input : List UInt8) (output : SliceSink)
    (table dictTable : HashTable w N) (extDict : List UInt8) (inputStreamOffset mainBase : Nat) :
    Run (Except CompressError Nat × SliceSink × HashTable w N) := do
  Run.assert (inputStreamOffset = extDict.length)
  Run.assert (mainBase + input.length ≤ U16_MAX)
  Run.assert (extDict.length ≤ WINDOW_SIZE)
  match ← streamBounds t inputStreamOffset input.length extDict.length with
  | .error e => return (.error e, output, table)
  | .ok () =>
    writeBlock t output table input.length fun rest =>
      compressBlockWithDictTable t input rest table dictTable extDict inputStreamOffset mainBase

end

end Lz4rip.Impl
