import Lz4rip.Framework.Logged
import Lz4rip.Proof.Encode.Lookup

/-!
# The block encoders with their table accesses

The block loops of `compressInternal` and `compressWithDictTable` once more, where
every `getAt` and `putAt` logs the position it is for (`Event`), and every step of a
search what the search carries there. They are the code, with the events forgotten:
`searchStep_run` to `compressInternal_run`, and `compressWithDictTable_run`. What is
logged holds at every step, whatever the input, the table and the parameters are, and
also where the code panics later on: `accesses_hashed`.
-/

namespace Lz4rip.Proof.Encode

open Lz4rip.Impl
open Run (Post FlowAll)

namespace Trace

open Logged (Logs)

variable {w N : Nat}

inductive Event (w N : Nat) where
  /-- A search comes to a position. -/
  | search (s : Search w N)
  /-- The table is looked up for the position `pos`, -/
  | get (table : HashTable w N) (idx pos : Nat)
  /-- or the dictionary's table is. -/
  | getDict (idx pos : Nat)
  /-- The table gets the entry `val` for the position `pos`. -/
  | put (idx pos val : Nat)

/-! ## Accesses -/

def getAt (T : HashTable w N) (idx pos : Nat) : Logged (Event w N) Nat := do
  Logged.tick (.get T idx pos)
  T.getAt idx

def getDictAt (T : HashTable w N) (idx pos : Nat) : Logged (Event w N) Nat := do
  Logged.tick (.getDict idx pos)
  T.getAt idx

def putAt (T : HashTable w N) (idx pos val : Nat) : Logged (Event w N) (HashTable w N) := do
  Logged.tick (.put idx pos val)
  T.putAt idx val

/-! ## `compressInternal` -/

def insertAt (t : Target) (readonly : Bool) (table : HashTable w N) (hash pos base : Nat) :
    Logged (Event w N) (HashTable w N) :=
  if readonly then pure table else do putAt table hash pos (← t.add pos base)

def emitMatch (t : Target) (readonly : Bool) (base : Nat) (input source : List UInt8)
    (table : HashTable w N) (rest : Rest) (literalStart cur candidate offset : Nat) :
    Logged (Event w N) (HashTable w N × Rest × Nat) := do
  let (cur, candidate) ← backtrackMatch input cur literalStart source candidate
  let litLen ← Run.sub cur literalStart
  let (duplicateLength, cur) ← countSameBytes t input (cur + MINMATCH) source
    (candidate + MINMATCH) END_OFFSET
  let limit ← Run.sub input.length 8
  let at' ← Run.sub cur 2
  let hash ← hashN t N (← rd64Upto t input at' limit)
  let table ← insertAt t readonly table hash at' base
  let rest ← emitSequence t rest input literalStart litLen offset duplicateLength
  return (table, rest, cur)

def searchStep (t : Target) (m : Mode) (input extDict : List UInt8)
    (inputStreamOffset extDictStreamOffset endPosCheck : Nat) (s : Search w N) :
    Logged (Event w N) (Run.Flow (Search w N) (SearchExit w N)) := do
  Logged.tick (.search s)
  let step := s.nonMatchCount / 2 ^ INCREASE_STEPSIZE_BITSHIFT
  let nonMatchCount ← t.add s.nonMatchCount 1
  let cur := s.cur
  let nextCur ← t.add cur step
  if nextCur > endPosCheck + 1 then return .done (.ended s.table)
  else
    let bytes := s.forwardBytes
    let hash ← s.hash t m
    let candidate ← getAt s.table hash cur
    let forwardBytes ← rd64 t input nextCur
    let forwardHash ← hashN t N forwardBytes
    let table ← insertAt t m.readonly s.table hash cur inputStreamOffset
    Run.assert (m.readonly ∨ candidate ≤ inputStreamOffset + cur)
    let s : Search w N := ⟨table, cur, nonMatchCount, forwardBytes, forwardHash⟩
    let currBytes := currBytes t m input cur nextCur bytes
    let inputPos := t.wrappingSub candidate inputStreamOffset
    if m.readonly then
      if candidate + 4 > extDict.length then return .next { s with cur := nextCur }
      else
        let distance ← Run.sub (inputStreamOffset + cur) candidate
        Run.assert (distance ≤ MAX_DISTANCE)
        Run.assert (extDictStreamOffset = 0)
        probe t true extDict candidate currBytes (inputStreamOffset + cur) candidate nextCur s
    else if ← inInput m cur nextCur inputPos then
      probe t m.near input inputPos currBytes cur inputPos nextCur s
    else if m.useDict ∧ candidate ≥ extDictStreamOffset ∧
        candidate - extDictStreamOffset + 4 ≤ extDict.length then
      probe t m.near extDict (candidate - extDictStreamOffset) currBytes (inputStreamOffset + cur)
        candidate nextCur s
    else return .next { s with cur := nextCur }

def matchLoopStep (t : Target) (m : Mode) (input : List UInt8)
    (inputStreamOffset endPosCheck : Nat) (s : MatchState w N) :
    Logged (Event w N) (Run.Flow (MatchState w N) (BlockState w N)) := do
  let (table, rest, cur) ← emitMatch t m.readonly inputStreamOffset input s.source s.block.table
    s.block.rest s.block.literalStart s.block.cur s.candidate s.offset
  if ¬ m.useDict ∧ cur ≤ endPosCheck then
    let bytes ← rd64 t input cur
    let hash ← hashN t N bytes
    let rematch ← getAt table hash cur
    let rc := t.wrappingSub rematch inputStreamOffset
    if ← isRematch t m input cur rc bytes then
      let table ← putAt table hash cur (← t.add cur inputStreamOffset)
      let distance ← Run.sub cur rc
      return .next ⟨⟨table, rest, cur, cur, s.block.forwardBytes, s.block.forwardHash⟩, input, rc,
        asU16 distance⟩
    else return .done ⟨table, rest, cur, cur, bytes, hash⟩
  else if cur ≤ endPosCheck then
    let bytes ← rd64 t input cur
    let hash ← hashN t N bytes
    return .done ⟨table, rest, cur, cur, bytes, hash⟩
  else return .done ⟨table, rest, cur, cur, s.block.forwardBytes, s.block.forwardHash⟩

def blockStep (t : Target) (m : Mode) (input extDict : List UInt8)
    (inputStreamOffset extDictStreamOffset endPosCheck : Nat) (s : BlockState w N) :
    Logged (Event w N) (Run.Flow (BlockState w N) (Rest × HashTable w N)) := do
  let exit ← Logged.loop (searchStep t m input extDict inputStreamOffset extDictStreamOffset
    endPosCheck) (input.length + 1)
    ⟨s.table, s.cur, 2 ^ INCREASE_STEPSIZE_BITSHIFT, s.forwardBytes, s.forwardHash⟩
  match exit with
  | .ended table => return .done (← handleLastLiterals t s.rest input s.literalStart, table)
  | .found f source candidate offset =>
    return .next (← Logged.loop (matchLoopStep t m input inputStreamOffset endPosCheck)
      (input.length + 1)
      ⟨⟨f.table, s.rest, s.literalStart, f.cur, f.forwardBytes, f.forwardHash⟩, source, candidate,
        offset⟩)

def insertFirst (t : Target) (readonly start : Bool) (input : List UInt8) (table : HashTable w N) :
    Logged (Event w N) (HashTable w N) :=
  if start then do
    let hash ← HashTable.getHashAt t N input 0
    insertAt t readonly table hash 0 0
  else return table

def compressBlock (t : Target) (m : Mode) (input : List UInt8) (inputPos : Nat) (rest : Rest)
    (table : HashTable w N) (extDict : List UInt8) (inputStreamOffset : Nat) :
    Logged (Event w N) (Rest × HashTable w N) := do
  if input.length < LZ4_MIN_LENGTH ∨ input.length - inputPos < LZ4_MIN_LENGTH then
    return (← handleLastLiterals t rest input inputPos, table)
  else
    let extDictStreamOffset ← Run.sub inputStreamOffset extDict.length
    let endPosCheck ← Run.sub input.length MFLIMIT
    let start := decide (inputPos = 0 ∧ inputStreamOffset = 0)
    let table ← insertFirst t m.readonly start input table
    let cur := if start then 1 else inputPos
    let forwardBytes ← rd64 t input cur
    let forwardHash ← hashN t N forwardBytes
    Logged.loop (blockStep t m input extDict inputStreamOffset extDictStreamOffset endPosCheck)
      (input.length + 1) ⟨table, rest, inputPos, cur, forwardBytes, forwardHash⟩

def writeBlock (t : Target) (output : SliceSink) (table : HashTable w N) (len : Nat)
    (block : Rest → Logged (Event w N) (Rest × HashTable w N)) :
    Logged (Event w N) (Except CompressError Nat × SliceSink × HashTable w N) := do
  Run.assert (output.pos ≤ output.output.length)
  let rest := output.output.drop output.pos
  if rest.length < (← getMaximumOutputSize t len) then
    return (.error .outputTooSmall, output, table)
  else
    let (out, table) ← block ⟨[], rest⟩
    let written ← Run.sub rest.length out.rest.length
    return (.ok written,
      ⟨output.output.take output.pos ++ out.written ++ out.rest, output.pos + written⟩, table)

def compressInternal (t : Target) (m : Mode) (input : List UInt8) (inputPos : Nat)
    (output : SliceSink) (table : HashTable w N) (extDict : List UInt8) (inputStreamOffset : Nat) :
    Logged (Event w N) (Except CompressError Nat × SliceSink × HashTable w N) := do
  Run.assert (inputPos ≤ input.length)
  match ← checkBounds t m.useDict input extDict inputStreamOffset with
  | .error e => return (.error e, output, table)
  | .ok () => do
    Run.assert (m.hasOffset ∨ inputStreamOffset = 0)
    Run.assert (m.readonly → m.useDict ∧ inputStreamOffset = extDict.length)
    Run.assert (m.readonly → extDict.length + input.length < U16_MAX)
    Run.assert (m.near → extDict.length + input.length ≤ MAX_DISTANCE + 1)
    let inputStreamOffset := if m.hasOffset then inputStreamOffset else 0
    writeBlock t output table (input.length - inputPos) fun rest =>
      compressBlock t m input inputPos rest table extDict inputStreamOffset

/-! ## `compressWithDictTable` -/

def dictProbe (t : Target) (input extDict : List UInt8) (dictTable : HashTable w N)
    (inputStreamOffset hash nextCur : Nat) (s : Search w N) :
    Logged (Event w N) (Run.Flow (Search w N) (SearchExit w N)) := do
  let dictCandidate ← getDictAt dictTable hash s.cur
  if dictCandidate + 4 ≤ extDict.length then
    let distance ← Run.sub (inputStreamOffset + s.cur) dictCandidate
    Run.assert (distance ≤ MAX_DISTANCE)
    probe t true extDict dictCandidate (rd32 t input (min s.cur nextCur))
      (inputStreamOffset + s.cur) dictCandidate nextCur s
  else return .next { s with cur := nextCur }

def dictSearchStep (t : Target) (input extDict : List UInt8) (dictTable : HashTable w N)
    (inputStreamOffset mainBase endPosCheck : Nat) (s : Search w N) :
    Logged (Event w N) (Run.Flow (Search w N) (SearchExit w N)) := do
  Logged.tick (.search s)
  let step := s.nonMatchCount / 2 ^ INCREASE_STEPSIZE_BITSHIFT
  let nonMatchCount ← t.add s.nonMatchCount 1
  let cur := s.cur
  let nextCur ← t.add cur step
  if nextCur > endPosCheck + 1 then return .done (.ended s.table)
  else
    let hash := s.forwardHash
    let forwardHash ← HashTable.getHashAt t N input nextCur
    let mainCandidate ← getAt s.table hash cur
    let table ← putAt s.table hash cur (← t.add cur mainBase)
    let s : Search w N := ⟨table, cur, nonMatchCount, s.forwardBytes, forwardHash⟩
    let mainPos := t.wrappingSub mainCandidate mainBase
    if mainCandidate ≥ mainBase ∧ mainPos < nextCur then
      Run.assert (mainPos < cur)
      match ← probe t true input mainPos (rd32 t input (min cur nextCur)) cur mainPos nextCur s with
      | .done exit => return .done exit
      | .next _ => dictProbe t input extDict dictTable inputStreamOffset hash nextCur s
    else dictProbe t input extDict dictTable inputStreamOffset hash nextCur s

def dictBlockStep (t : Target) (input extDict : List UInt8) (dictTable : HashTable w N)
    (inputStreamOffset mainBase endPosCheck : Nat) (s : BlockState w N) :
    Logged (Event w N) (Run.Flow (BlockState w N) (Rest × HashTable w N)) := do
  let exit ← Logged.loop (dictSearchStep t input extDict dictTable inputStreamOffset mainBase
    endPosCheck) (input.length + 1)
    ⟨s.table, s.cur, 2 ^ INCREASE_STEPSIZE_BITSHIFT, s.forwardBytes, s.forwardHash⟩
  match exit with
  | .ended table => return .done (← handleLastLiterals t s.rest input s.literalStart, table)
  | .found f source candidate offset => do
    let (table, rest, cur) ← emitMatch t false mainBase input source f.table s.rest s.literalStart
      f.cur candidate offset
    if cur ≤ endPosCheck then
      let forwardHash ← HashTable.getHashAt t N input cur
      return .next ⟨table, rest, cur, cur, f.forwardBytes, forwardHash⟩
    else return .next ⟨table, rest, cur, cur, f.forwardBytes, f.forwardHash⟩

def compressBlockWithDictTable (t : Target) (input : List UInt8) (rest : Rest)
    (table dictTable : HashTable w N) (extDict : List UInt8) (inputStreamOffset mainBase : Nat) :
    Logged (Event w N) (Rest × HashTable w N) := do
  if input.length < LZ4_MIN_LENGTH then
    return (← handleLastLiterals t rest input 0, table)
  else
    let endPosCheck ← Run.sub input.length MFLIMIT
    let hash ← HashTable.getHashAt t N input 0
    let table ← putAt table hash 0 mainBase
    let forwardHash ← HashTable.getHashAt t N input 1
    Logged.loop (dictBlockStep t input extDict dictTable inputStreamOffset mainBase endPosCheck)
      (input.length + 1) ⟨table, rest, 0, 1, 0, forwardHash⟩

def compressWithDictTable (t : Target) (input : List UInt8) (output : SliceSink)
    (table dictTable : HashTable w N) (extDict : List UInt8) (inputStreamOffset mainBase : Nat) :
    Logged (Event w N) (Except CompressError Nat × SliceSink × HashTable w N) := do
  Run.assert (inputStreamOffset = extDict.length)
  Run.assert (mainBase + input.length ≤ U16_MAX)
  Run.assert (extDict.length ≤ WINDOW_SIZE)
  match ← streamBounds t inputStreamOffset input.length extDict.length with
  | .error e => return (.error e, output, table)
  | .ok () =>
    writeBlock t output table input.length fun rest =>
      compressBlockWithDictTable t input rest table dictTable extDict inputStreamOffset mainBase

/-! ## The code, without the events -/

section

variable (t : Target) (m : Mode) (input extDict : List UInt8)

@[simp] theorem getAt_run (T : HashTable w N) (idx pos : Nat) : (getAt T idx pos).run = T.getAt idx := rfl

@[simp] theorem getDictAt_run (T : HashTable w N) (idx pos : Nat) :
    (getDictAt T idx pos).run = T.getAt idx := rfl

@[simp] theorem putAt_run (T : HashTable w N) (idx pos val : Nat) :
    (putAt T idx pos val).run = T.putAt idx val := rfl

@[simp] theorem insertAt_run (readonly : Bool) (T : HashTable w N) (hash pos base : Nat) :
    (insertAt t readonly T hash pos base).run = Impl.insertAt t readonly T hash pos base := by
  simp [insertAt, Impl.insertAt]

@[simp] theorem emitMatch_run (readonly : Bool) (base : Nat) (source : List UInt8) (T : HashTable w N)
    (rest : Rest) (literalStart cur candidate offset : Nat) :
    (emitMatch t readonly base input source T rest literalStart cur candidate offset).run =
      Impl.emitMatch t readonly base input source T rest literalStart cur candidate offset := by
  simp [emitMatch, Impl.emitMatch]

@[simp] theorem searchStep_run (base extOff endPos : Nat) (s : Search w N) :
    (searchStep t m input extDict base extOff endPos s).run =
      Impl.searchStep t m input extDict base extOff endPos s := by
  simp [searchStep, Impl.searchStep]

@[simp] theorem matchLoopStep_run (base endPos : Nat) (s : MatchState w N) :
    (matchLoopStep t m input base endPos s).run = Impl.matchLoopStep t m input base endPos s := by
  simp [matchLoopStep, Impl.matchLoopStep]

@[simp] theorem blockStep_run (base extOff endPos : Nat) (s : BlockState w N) :
    (blockStep t m input extDict base extOff endPos s).run =
      Impl.blockStep t m input extDict base extOff endPos s := by
  simp only [blockStep, Impl.blockStep, Logged.run_bind, Logged.run_loop, searchStep_run]
  refine bind_congr fun exit => ?_
  cases exit with
  | ended T => simp
  | found f source candidate offset => simp

@[simp] theorem insertFirst_run (readonly start : Bool) (T : HashTable w N) :
    (insertFirst t readonly start input T).run = Impl.insertFirst t readonly start input T := by
  simp [insertFirst, Impl.insertFirst]

@[simp] theorem compressBlock_run (inputPos : Nat) (rest : Rest) (T : HashTable w N) (base : Nat) :
    (compressBlock t m input inputPos rest T extDict base).run =
      Impl.compressBlock t m input inputPos rest T extDict base := by
  simp [compressBlock, Impl.compressBlock]

theorem writeBlock_run (output : SliceSink) (T : HashTable w N) (len : Nat)
    (block : Rest → Logged (Event w N) (Rest × HashTable w N)) :
    (writeBlock t output T len block).run = Impl.writeBlock t output T len fun rest => (block rest).run := by
  simp [writeBlock, Impl.writeBlock]

theorem compressInternal_run (inputPos : Nat) (output : SliceSink) (T : HashTable w N) (base : Nat) :
    (compressInternal t m input inputPos output T extDict base).run =
      Impl.compressInternal t m input inputPos output T extDict base := by
  simp only [compressInternal, Impl.compressInternal, Logged.run_bind, Logged.run_liftM]
  refine bind_congr fun _ => bind_congr fun r => ?_
  cases r with
  | error e => rfl
  | ok _ => simp [writeBlock_run]

@[simp] theorem dictProbe_run (dictTable : HashTable w N) (offset hash nextCur : Nat) (s : Search w N) :
    (dictProbe t input extDict dictTable offset hash nextCur s).run =
      Impl.dictProbe t input extDict dictTable offset hash nextCur s := by
  simp [dictProbe, Impl.dictProbe]

@[simp] theorem dictSearchStep_run (dictTable : HashTable w N) (offset base endPos : Nat)
    (s : Search w N) : (dictSearchStep t input extDict dictTable offset base endPos s).run =
      Impl.dictSearchStep t input extDict dictTable offset base endPos s := by
  simp only [dictSearchStep, Impl.dictSearchStep, Logged.run_bind, Logged.run_liftM, Logged.run_tick,
    Logged.run_ite, Run.ret_bind, getAt_run, putAt_run, dictProbe_run]
  refine bind_congr fun count => bind_congr fun nextCur => ?_
  split
  · rfl
  refine bind_congr fun hash => bind_congr fun candidate => bind_congr fun val =>
    bind_congr fun T => ?_
  split
  · refine bind_congr fun _ => bind_congr fun x => ?_
    cases x with
    | next _ => rw [dictProbe_run]
    | done _ => rfl
  · rfl

@[simp] theorem dictBlockStep_run (dictTable : HashTable w N) (offset base endPos : Nat)
    (s : BlockState w N) : (dictBlockStep t input extDict dictTable offset base endPos s).run =
      Impl.dictBlockStep t input extDict dictTable offset base endPos s := by
  simp only [dictBlockStep, Impl.dictBlockStep, Logged.run_bind, Logged.run_loop, dictSearchStep_run]
  refine bind_congr fun exit => ?_
  cases exit with
  | ended T => simp
  | found f source candidate offset => simp

@[simp] theorem compressBlockWithDictTable_run (rest : Rest) (T dictTable : HashTable w N)
    (offset base : Nat) :
    (compressBlockWithDictTable t input rest T dictTable extDict offset base).run =
      Impl.compressBlockWithDictTable t input rest T dictTable extDict offset base := by
  simp [compressBlockWithDictTable, Impl.compressBlockWithDictTable]

theorem compressWithDictTable_run (output : SliceSink) (T dictTable : HashTable w N)
    (offset base : Nat) :
    (compressWithDictTable t input output T dictTable extDict offset base).run =
      Impl.compressWithDictTable t input output T dictTable extDict offset base := by
  simp only [compressWithDictTable, Impl.compressWithDictTable, Logged.run_bind, Logged.run_liftM]
  refine bind_congr fun _ => bind_congr fun _ => bind_congr fun _ => bind_congr fun r => ?_
  cases r with
  | error e => rfl
  | ok _ => simp [writeBlock_run]

end

/-! ## What is logged -/

/-- What an event says. `T₀` is the table that the call has been given, and `base` what
the table counts positions from. -/
def Event.Holds (t : Target) (carried : Bool) (input : List UInt8) (base : Nat)
    (T₀ : HashTable w N) : Event w N → Prop
  | .search s => s.cur + MFLIMIT ≤ input.length →
    (carried → rd64 t input s.cur = .ret s.forwardBytes) ∧
      HashTable.getHashAt t N input s.cur = .ret s.forwardHash
  | .get T idx pos =>
    HashTable.getHashAt t N input pos = .ret idx ∧ Stored t input base T₀ T pos
  | .getDict idx pos => HashTable.getHashAt t N input pos = .ret idx
  | .put idx pos val => HashTable.getHashAt t N input pos = .ret idx ∧ val = pos + base

section

variable {t : Target} {m : Mode} {carried : Bool} {input extDict source : List UInt8}
  {base endPos literalStart : Nat} {T₀ T : HashTable w N}

theorem getAt_logs {idx pos : Nat} (hidx : HashTable.getHashAt t N input pos = .ret idx)
    (hT : Stored t input base T₀ T pos) : Logs (Event.Holds t carried input base T₀) (getAt T idx pos) :=
  Logs.bind (.tick ⟨hidx, hT⟩) fun _ _ => .lift _

theorem getDictAt_logs {idx pos : Nat} (hidx : HashTable.getHashAt t N input pos = .ret idx) :
    Logs (Event.Holds t carried input base T₀) (getDictAt T idx pos) :=
  Logs.bind (.tick hidx) fun _ _ => .lift _

theorem putAt_logs {idx pos val : Nat} (hidx : HashTable.getHashAt t N input pos = .ret idx)
    (hval : val = pos + base) : Logs (Event.Holds t carried input base T₀) (putAt T idx pos val) :=
  Logs.bind (.tick ⟨hidx, hval⟩) fun _ _ => .lift _

theorem insertAt_logs {readonly : Bool} {idx pos : Nat}
    (hidx : HashTable.getHashAt t N input pos = .ret idx) :
    Logs (Event.Holds t carried input base T₀) (insertAt t readonly T idx pos base) :=
  .ite (fun _ => .pure _) fun _ => .lift_bind fun _ hval => putAt_logs hidx (Run.Post.add t _ _ _ hval)

theorem emitMatch_logs {readonly : Bool} {rest : Rest} {cur candidate offset : Nat} :
    Logs (Event.Holds t carried input base T₀)
      (emitMatch t readonly base input source T rest literalStart cur candidate offset) :=
  .lift_bind fun _ _ => .lift_bind fun _ _ => .lift_bind fun _ _ => .lift_bind fun _ _ =>
    .lift_bind fun _ _ => .lift_bind fun _ hb => .lift_bind fun _ hh =>
    (insertAt_logs (getHashAt_of (rd64Upto_post t _ _ _ _ hb) hh)).bind fun _ _ =>
    .lift_bind fun _ _ => .pure _

theorem search_holds (hend : endPos + MFLIMIT = input.length) {s : Search w N}
    (h : Prefetched t carried input base endPos T₀ literalStart s) :
    Event.Holds t carried input base T₀ (.search s) := fun hle =>
  ⟨fun hc => h.bytes hc (by omega), h.hash (by omega)⟩

theorem searchStep_logs {extOff : Nat} (hend : endPos + MFLIMIT = input.length) {s : Search w N}
    (h : Prefetched t true input base endPos T₀ literalStart s) :
    Logs (Event.Holds t true input base T₀) (searchStep t m input extDict base extOff endPos s) := by
  refine Logs.bind (.tick (search_holds hend h)) fun _ _ => .lift_bind fun count _ => .lift_bind
    fun nextCur hnext => .ite (fun _ => .pure _) fun hgo => ?_
  have hle : s.cur ≤ endPos := h.cur_le (Run.Post.add t _ _ _ hnext ▸ hgo)
  refine .lift_bind fun idx hidx => (getAt_logs (h.index hle hidx) h.stored).bind fun candidate _ =>
    .lift_bind fun bytes _ => .lift_bind fun hash _ => (insertAt_logs (h.index hle hidx)).bind
    fun T _ => .lift_bind fun _ _ => ?_
  -- No entry is looked up or stored behind this point.
  refine .ite (fun _ => .ite (fun _ => .pure _) fun _ => .lift_bind fun _ _ => .lift_bind fun _ _ =>
    .lift_bind fun _ _ => .lift _) fun _ => .lift_bind fun _ _ => .ite (fun _ => .lift _) fun _ =>
    .ite (fun _ => .lift _) fun _ => .pure _

theorem matchLoopStep_logs (hend : endPos + MFLIMIT ≤ input.length) {s : MatchState w N}
    (h : Matched t input base endPos T₀ s) :
    Logs (Event.Holds t true input base T₀) (matchLoopStep t m input base endPos s) := by
  refine emitMatch_logs.bind fun ⟨T, rest, cur⟩ hemit => ?_
  rw [emitMatch_run] at hemit
  have hT := (emitMatch_post hend h.1 h.2 _ hemit).2
  refine .ite (fun _ => .lift_bind fun bytes hb => .lift_bind fun hash hh => ?_) fun _ => .ite
    (fun _ => .lift_bind fun _ _ => .lift_bind fun _ _ => .pure _) fun _ => .pure _
  have hidx := getHashAt_of hb hh
  exact (getAt_logs hidx hT).bind fun _ _ => .lift_bind fun _ _ => .ite (fun _ => .lift_bind
    fun _ hval => (putAt_logs hidx (Run.Post.add t _ _ _ hval)).bind fun _ _ => .lift_bind fun _ _ =>
    .pure _) fun _ => .pure _

theorem blockStep_logs {extOff : Nat} (hend : endPos + MFLIMIT = input.length) {b : BlockState w N}
    (h : Prefetched t true input base endPos T₀ b.literalStart (searchStart b)) :
    Logs (Event.Holds t true input base T₀) (blockStep t m input extDict base extOff endPos b) := by
  have hsearch : Logs (Event.Holds t true input base T₀)
      (Logged.loop (searchStep t m input extDict base extOff endPos) (input.length + 1)
        (searchStart b)) :=
    .loop _ (fun _ => searchStep_logs hend)
      (fun _ _ hs he => searchStep_prefetched hs _ ((searchStep_run ..).symm.trans he)) _ _ h
  refine hsearch.bind fun exit hexit => ?_
  simp only [Logged.run_loop, searchStep_run] at hexit
  cases exit with
  | ended T => exact .lift_bind fun _ _ => .pure _
  | found f source candidate offset =>
    have hm : Matched t input base endPos T₀ (matchStart b f source candidate offset) :=
      search_post h _ hexit
    exact (Logs.loop _ (fun _ => matchLoopStep_logs hend.le) (fun _ _ hs he =>
      matchLoopStep_prefetched hend.le hs _ ((matchLoopStep_run ..).symm.trans he)) _ _ hm).bind
      fun _ _ => .pure _

theorem insertFirst_logs {readonly : Bool} {inputPos : Nat} : Logs (Event.Holds t carried input base T₀)
    (insertFirst t readonly (decide (inputPos = 0 ∧ base = 0)) input T₀) := by
  refine .ite (fun hs => .lift_bind fun idx hidx => ?_) fun _ => .pure _
  obtain ⟨-, rfl⟩ := of_decide_eq_true hs
  exact insertAt_logs hidx

theorem compressBlock_logs {inputPos : Nat} {rest : Rest} : Logs (Event.Holds t true input base T₀)
    (compressBlock t m input inputPos rest T₀ extDict base) := by
  refine .ite (fun _ => .lift_bind fun _ _ => .pure _) fun _ => .lift_bind fun extOff _ =>
    .lift_bind fun endPos hendPos => insertFirst_logs.bind fun T hT => .lift_bind fun bytes hb =>
    .lift_bind fun hash hh => ?_
  obtain ⟨rfl, hle⟩ := Run.Post.sub _ _ _ hendPos
  have hend := Nat.sub_add_cancel hle
  rw [insertFirst_run] at hT
  exact .loop (fun b : BlockState w N => Prefetched t true input base (input.length - MFLIMIT) T₀
    b.literalStart (searchStart b)) (fun _ => blockStep_logs hend)
    (fun _ _ hs he => blockStep_prefetched hend.le hs _ ((blockStep_run ..).symm.trans he)) _ _
    (first_prefetched (insertFirst_post _ hT) hb hh)

-- Twenty equal bytes: position 0, a search that finds it at position 1, the last
-- position but one of the match, and a search at its end.
example : (compressBlock ⟨.w64, false, false⟩ ⟨false, false, false, false⟩ (List.replicate 20 7) 0
    ⟨[], List.replicate 40 0⟩ (HashTable.zero 32 256) [] 0).log.length = 6 := by decide +kernel

theorem writeBlock_logs {P : Event w N → Prop} {output : SliceSink} {len : Nat}
    {block : Rest → Logged (Event w N) (Rest × HashTable w N)} (h : ∀ rest, Logs P (block rest)) :
    Logs P (writeBlock t output T len block) :=
  .lift_bind fun _ _ => .lift_bind fun _ _ => .ite (fun _ => .pure _) fun _ =>
    (h _).bind fun _ _ => .lift_bind fun _ _ => .pure _

theorem compressInternal_logs {inputPos : Nat} {output : SliceSink} :
    Logs (Event.Holds t true input base T₀)
      (compressInternal t m input inputPos output T₀ extDict base) := by
  refine .lift_bind fun _ _ => .lift_bind fun r _ => ?_
  cases r with
  | error e => exact .pure _
  | ok _ =>
    refine .lift_bind fun _ hoff => .lift_bind fun _ _ => .lift_bind fun _ _ => .lift_bind fun _ _ => ?_
    have hbase : (if m.hasOffset then base else 0) = base := by
      split
      · rfl
      · exact ((Run.Post.assert _ hoff).resolve_left ‹_›).symm
    rw [hbase]
    exact writeBlock_logs fun _ => compressBlock_logs

end

/-! ## What is logged with the dictionary's table -/

section

variable {t : Target} {input extDict : List UInt8} {offset base endPos literalStart : Nat}
  {T₀ T dictTable : HashTable w N}

theorem dictProbe_logs {hash nextCur : Nat} {s : Search w N}
    (hidx : HashTable.getHashAt t N input s.cur = .ret hash) :
    Logs (Event.Holds t false input base T₀)
      (dictProbe t input extDict dictTable offset hash nextCur s) :=
  (getDictAt_logs hidx).bind fun _ _ => .ite (fun _ => .lift_bind fun _ _ => .lift_bind fun _ _ =>
    .lift _) fun _ => .pure _

theorem dictSearchStep_logs (hend : endPos + MFLIMIT = input.length) {s : Search w N}
    (h : Prefetched t false input base endPos T₀ literalStart s) :
    Logs (Event.Holds t false input base T₀)
      (dictSearchStep t input extDict dictTable offset base endPos s) := by
  refine Logs.bind (.tick (search_holds hend h)) fun _ _ => .lift_bind fun count _ => .lift_bind
    fun nextCur hnext => .ite (fun _ => .pure _) fun hgo => ?_
  have hidx := h.hash (h.cur_le (Run.Post.add t _ _ _ hnext ▸ hgo))
  refine .lift_bind fun hash _ => (getAt_logs hidx h.stored).bind fun candidate _ => .lift_bind
    fun val hval => (putAt_logs hidx (Run.Post.add t _ _ _ hval)).bind fun T _ => ?_
  refine .ite (fun _ => .lift_bind fun _ _ => .lift_bind fun x _ => ?_) fun _ => dictProbe_logs hidx
  cases x with
  | next _ => exact dictProbe_logs hidx
  | done _ => exact .pure _

theorem dictBlockStep_logs (hend : endPos + MFLIMIT = input.length) {b : BlockState w N}
    (h : Prefetched t false input base endPos T₀ b.literalStart (searchStart b)) :
    Logs (Event.Holds t false input base T₀)
      (dictBlockStep t input extDict dictTable offset base endPos b) := by
  have hsearch : Logs (Event.Holds t false input base T₀)
      (Logged.loop (dictSearchStep t input extDict dictTable offset base endPos) (input.length + 1)
        (searchStart b)) :=
    .loop _ (fun _ => dictSearchStep_logs hend)
      (fun _ _ hs he => dictSearchStep_prefetched hs _ ((dictSearchStep_run ..).symm.trans he)) _ _ h
  refine hsearch.bind fun exit _ => ?_
  cases exit with
  | ended T => exact .lift_bind fun _ _ => .pure _
  | found f source candidate offset =>
    exact emitMatch_logs.bind fun _ _ => .ite (fun _ => .lift_bind fun _ _ => .pure _) fun _ => .pure _

theorem compressBlockWithDictTable_logs {rest : Rest} : Logs (Event.Holds t false input base T₀)
    (compressBlockWithDictTable t input rest T₀ dictTable extDict offset base) := by
  refine .ite (fun _ => .lift_bind fun _ _ => .pure _) fun _ => .lift_bind fun endPos hendPos =>
    .lift_bind fun idx hidx => (putAt_logs hidx (Nat.zero_add _).symm).bind fun T hT =>
    .lift_bind fun hash hh => ?_
  obtain ⟨rfl, hle⟩ := Run.Post.sub _ _ _ hendPos
  have hend := Nat.sub_add_cancel hle
  have hold : Stored t input base T₀ T₀ 1 := .refl T₀ 1
  have hput := hold.putAt hidx Nat.one_pos
  rw [Nat.zero_add] at hput
  exact .loop (fun b : BlockState w N => Prefetched t false input base (input.length - MFLIMIT) T₀
    b.literalStart (searchStart b)) (fun _ => dictBlockStep_logs hend)
    (fun _ _ hs he => dictBlockStep_prefetched hend.le hs _ ((dictBlockStep_run ..).symm.trans he)) _ _
    ⟨Nat.zero_le _, Nat.le_refl _, fun hc => absurd hc Bool.false_ne_true, fun _ => hh, hput _ hT⟩

theorem compressWithDictTable_logs {output : SliceSink} : Logs (Event.Holds t false input base T₀)
    (compressWithDictTable t input output T₀ dictTable extDict offset base) := by
  refine .lift_bind fun _ _ => .lift_bind fun _ _ => .lift_bind fun _ _ => .lift_bind fun r _ => ?_
  cases r with
  | error e => exact .pure _
  | ok _ => exact writeBlock_logs fun _ => compressBlockWithDictTable_logs

end

end Trace

/-- The block encoders are the ones that log their table accesses, with the events
forgotten. Each access, in every call, is at the hash of the bytes at the position it is
for, an entry is that position, and what the call has stored in the table that is looked
up are positions before it; what a search carries belongs to its position as long as it
goes on. -/
theorem accesses_hashed {w N : Nat} (t : Target) (input : List UInt8) (output : SliceSink)
    (T₀ : HashTable w N) (extDict : List UInt8) (base : Nat) :
    (∀ m inputPos,
      (Trace.compressInternal t m input inputPos output T₀ extDict base).run =
        compressInternal t m input inputPos output T₀ extDict base ∧
      ∀ e ∈ (Trace.compressInternal t m input inputPos output T₀ extDict base).log,
        e.Holds t true input base T₀) ∧
    ∀ dictTable offset,
      (Trace.compressWithDictTable t input output T₀ dictTable extDict offset base).run =
        compressWithDictTable t input output T₀ dictTable extDict offset base ∧
      ∀ e ∈ (Trace.compressWithDictTable t input output T₀ dictTable extDict offset base).log,
        e.Holds t false input base T₀ :=
  ⟨fun m inputPos => ⟨Trace.compressInternal_run t m input extDict inputPos output T₀ base,
    Trace.compressInternal_logs⟩,
    fun dictTable offset =>
      ⟨Trace.compressWithDictTable_run t input extDict output T₀ dictTable offset base,
        Trace.compressWithDictTable_logs⟩⟩

end Lz4rip.Proof.Encode
