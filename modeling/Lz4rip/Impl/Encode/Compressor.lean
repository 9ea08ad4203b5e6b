import Lz4rip.Impl.Encode.Compress

/-!
# `lz4rip-encode`, `compress.rs` and `compressor.rs`: entry points and compressors

The owning compressors (`CompressorN`, `DictCompressorN`) hold what the
borrowing ones do and call the same functions.
-/

namespace Lz4rip.Impl

/-- `compress_into_sink_with_dict` past the test for a short dictionary: 16-bit
positions, or 32-bit ones. -/
def compressIntoSinkByLength (t : Target) (useDict : Bool) (input : List UInt8)
    (output : SliceSink) (dictData : List UInt8) :
    Run (Except CompressError Nat × SliceSink) := do
  if dictData.length + input.length < U16_MAX then
    let dict ← HashTable.new 16 DEFAULT_DICT_ENTRIES
    let (dict, dictData) ← initDict t dict dictData
    let (r, output, _) ← compressInternal t ⟨useDict, useDict, false, true⟩ input 0 output dict
      dictData dictData.length
    return (r, output)
  else
    let dict ← HashTable.new 32 DEFAULT_NODICT_ENTRIES
    let (dict, dictData) ← initDict t dict dictData
    let (r, output, _) ← compressInternal t ⟨useDict, useDict, false, false⟩ input 0 output dict
      dictData dictData.length
    return (r, output)

/-- `compress_into_sink_with_dict`: a dictionary shorter than a match is not
used. -/
def compressIntoSinkWithDict (t : Target) (useDict : Bool) (input : List UInt8)
    (output : SliceSink) (dictData : List UInt8) :
    Run (Except CompressError Nat × SliceSink) :=
  if useDict ∧ dictData.length < MINMATCH then compressIntoSinkByLength t false input output []
  else compressIntoSinkByLength t useDict input output dictData

/-- The result, and the output buffer after the call. -/
def compressInto (t : Target) (input output : List UInt8) :
    Run (Except CompressError Nat × List UInt8) := do
  let (r, sink) ← compressIntoSinkWithDict t false input (← SliceSink.new output 0) []
  return (r, sink.output)

def compressIntoWithDict (t : Target) (input output dict : List UInt8) :
    Run (Except CompressError Nat × List UInt8) := do
  let (r, sink) ← compressIntoSinkWithDict t true input (← SliceSink.new output 0) dict
  return (r, sink.output)

/-- Compresses into a new vector, which `vec!` panics at where it has more than `isize::MAX`
bytes. -/
def compress (t : Target) (input : List UInt8) : Run (List UInt8) := do
  let maxCompressedSize ← getMaximumOutputSize t input.length
  Run.assert (maxCompressedSize ≤ t.isizeMax)
  let (r, sink) ← compressIntoSinkWithDict t false input
    (← SliceSink.new (List.replicate maxCompressedSize 0) 0) []
  let compressedLen ← Run.unwrap r.toOption
  return sink.output.take compressedLen

/-! ## Reusable compressors -/

/-- `compress` of a compressor: `compress_into` a new vector of the maximum output size, which
`vec!` panics at where it has more than `isize::MAX` bytes, then `truncate`. -/
def compressToVec {γ : Type} (t : Target) (input : List UInt8)
    (compressInto : List UInt8 → Run (Except CompressError Nat × List UInt8 × γ)) :
    Run (List UInt8 × γ) := do
  let maxCompressed ← getMaximumOutputSize t input.length
  Run.assert (maxCompressed ≤ t.isizeMax)
  let (r, compressed, c) ← compressInto (List.replicate maxCompressed 0)
  let compressedLen ← Run.unwrap r.toOption
  return (compressed.take compressedLen, c)

/-- `prepare_plain_table`: the table and the stream offset for the next call,
and the offset for this one. -/
def preparePlainTable {N : Nat} (t : Target) (table : HashTableU32 N) (streamOffset inputLen : Nat) :
    Run (HashTableU32 N × Nat × Nat) := do
  if inputLen > EPOCH_THRESHOLD then
    let next ← t.add (← t.add inputLen MAX_DISTANCE) 1
    return (table.clear, next, 0)
  else
    let next := streamOffset + inputLen + (MAX_DISTANCE + 1)
    if next < t.modulus ∧ next ≤ U32_MAX then return (table, next, streamOffset)
    else return (table.clear, inputLen + MAX_DISTANCE + 1, 0)

/-- `compress_plain_table`. -/
def compressPlainTable {N : Nat} (t : Target) (table : HashTableU32 N) (streamOffset : Nat)
    (input output : List UInt8) :
    Run (Except CompressError Nat × List UInt8 × HashTableU32 N × Nat) := do
  let (table, streamOffset, offset) ← preparePlainTable t table streamOffset input.length
  let m : Mode := if offset > 0 then ⟨false, true, false, true⟩
    else if input.length ≤ MAX_DISTANCE + 1 then ⟨false, false, false, true⟩
    else ⟨false, false, false, false⟩
  let (r, sink, table) ← compressInternal t m input 0 (← SliceSink.new output 0) table [] offset
  return (r, sink.output, table, streamOffset)

/-- A reusable no-dict block compressor with `N` hash-table entries. -/
structure CompressorRefN (N : Nat) where
  table : HashTableU32 N
  streamOffset : Nat

def CompressorRefN.new (N : Nat) : Run (CompressorRefN N) := do
  return ⟨← HashTable.new 32 N, 0⟩

/-- The result, the output buffer and the compressor after the call. -/
def CompressorRefN.compressInto {N : Nat} (t : Target) (c : CompressorRefN N)
    (input output : List UInt8) :
    Run (Except CompressError Nat × List UInt8 × CompressorRefN N) := do
  let (r, output, table, streamOffset) ← compressPlainTable t c.table c.streamOffset input output
  return (r, output, ⟨table, streamOffset⟩)

def CompressorRefN.compress {N : Nat} (t : Target) (c : CompressorRefN N) (input : List UInt8) :
    Run (List UInt8 × CompressorRefN N) :=
  compressToVec t input (c.compressInto t input)

/-- `compress_dict_tables`: the result, the output buffer, the tables and the
main table's base. -/
def compressDictTables {N : Nat} (t : Target) (table pristine : HashTableU32U16 N)
    (mainBase : Nat) (dict input output : List UInt8) :
    Run (Except CompressError Nat × List UInt8 × HashTableU32U16 N × HashTableU32U16 N × Nat) := do
  if input.length ≤ DICT_READONLY_LIMIT ∧ dict.length + input.length < U16_MAX then
    let (r, sink, pristine) ← compressInternal t ⟨true, true, true, true⟩ input 0
      (← SliceSink.new output 0) pristine dict dict.length
    return (r, sink.output, table, pristine, mainBase)
  else if dict.length + input.length < U16_MAX then
    let reset := input.length > DICT_EPOCH_THRESHOLD ∨ mainBase + input.length > U16_MAX
    let table := if reset then table.clear else table
    let base := if reset then 1 else mainBase
    let (r, sink, table) ← compressWithDictTable t input (← SliceSink.new output 0) table pristine
      dict dict.length base
    return (r, sink.output, table, pristine, base + input.length)
  else
    let u32Table ← HashTable.new 32 N
    let (u32Table, dictData) ← initDict t u32Table dict
    let (r, sink, _) ← compressInternal t ⟨true, true, false, false⟩ input 0
      (← SliceSink.new output 0) u32Table dictData dictData.length
    return (r, sink.output, table, pristine, mainBase)

/-- A reusable dict block compressor with `N` entries per table. -/
structure DictCompressorRefN (N : Nat) where
  table : HashTableU32U16 N
  pristine : HashTableU32U16 N
  mainBase : Nat
  dict : List UInt8

/-- The part of a dictionary that a compressor keeps. -/
def trimDict (dict : List UInt8) : List UInt8 :=
  if dict.length < MINMATCH then []
  else if dict.length > WINDOW_SIZE then dict.drop (dict.length - WINDOW_SIZE)
  else dict

def DictCompressorRefN.new (t : Target) (N : Nat) (dict : List UInt8) :
    Run (DictCompressorRefN N) := do
  let trimmed := trimDict dict
  let pristine ← HashTable.new 16 N
  let (pristine, _) ← initDict t pristine trimmed
  return ⟨← HashTable.new 16 N, pristine, 1, trimmed⟩

/-- The result, the output buffer and the compressor after the call. -/
def DictCompressorRefN.compressInto {N : Nat} (t : Target) (c : DictCompressorRefN N)
    (input output : List UInt8) :
    Run (Except CompressError Nat × List UInt8 × DictCompressorRefN N) := do
  let (r, output, table, pristine, mainBase) ← compressDictTables t c.table c.pristine c.mainBase
    c.dict input output
  return (r, output, ⟨table, pristine, mainBase, c.dict⟩)

def DictCompressorRefN.compress {N : Nat} (t : Target) (c : DictCompressorRefN N) (input : List UInt8) :
    Run (List UInt8 × DictCompressorRefN N) :=
  compressToVec t input (c.compressInto t input)

/-- The owning no-dict compressor. -/
structure CompressorN (N : Nat) where
  inner : CompressorRefN N

def CompressorN.new (N : Nat) : Run (CompressorN N) := do return ⟨← CompressorRefN.new N⟩

def CompressorN.compressInto {N : Nat} (t : Target) (c : CompressorN N)
    (input output : List UInt8) : Run (Except CompressError Nat × List UInt8 × CompressorN N) := do
  let (r, output, inner) ← c.inner.compressInto t input output
  return (r, output, ⟨inner⟩)

def CompressorN.compress {N : Nat} (t : Target) (c : CompressorN N) (input : List UInt8) :
    Run (List UInt8 × CompressorN N) := do
  let (compressed, inner) ← c.inner.compress t input
  return (compressed, ⟨inner⟩)

/-- The owning dict compressor. -/
structure DictCompressorN (N : Nat) where
  dict : List UInt8
  table : HashTableU32U16 N
  pristine : HashTableU32U16 N
  mainBase : Nat

def DictCompressorN.new (t : Target) (N : Nat) (dict : List UInt8) : Run (DictCompressorN N) := do
  let trimmed := trimDict dict
  let pristine ← HashTable.new 16 N
  let (pristine, _) ← initDict t pristine trimmed
  return ⟨trimmed, ← HashTable.new 16 N, pristine, 1⟩

def DictCompressorN.compressInto {N : Nat} (t : Target) (c : DictCompressorN N)
    (input output : List UInt8) :
    Run (Except CompressError Nat × List UInt8 × DictCompressorN N) := do
  let (r, output, table, pristine, mainBase) ← compressDictTables t c.table c.pristine c.mainBase
    c.dict input output
  return (r, output, ⟨c.dict, table, pristine, mainBase⟩)

def DictCompressorN.compress {N : Nat} (t : Target) (c : DictCompressorN N) (input : List UInt8) :
    Run (List UInt8 × DictCompressorN N) :=
  compressToVec t input (c.compressInto t input)

end Lz4rip.Impl
