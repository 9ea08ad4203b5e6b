import Lz4rip.Framework.Words
import Lz4rip.Impl.Core

/-!
# `lz4rip-encode`, `hashtable.rs`: words, hashes and hash tables

The two table types of the code differ in the width of their entries only:
`HashTable w N` has `N` entries of `w` bits, and `putAt` keeps the low `w` bits
of a position, as the casts of the code do.
-/

namespace Lz4rip.Impl

/-- The loop over the 8-byte chunks of both sides: how many bytes agree, and
whether a chunk that differs was met. -/
def countChunks (t : Target) : Nat → List UInt8 → List UInt8 → Nat × Bool
  | 0, _, _ => (0, false)
  | k + 1, a, b =>
    let diff := neNat t (a.take 8) ^^^ neNat t (b.take 8)
    if diff ≠ 0 then (trailingZeros 64 (toLe t 8 diff) / 8, true)
    else
      let (num, stop) := countChunks t k (a.drop 8) (b.drop 8)
      (8 + num, stop)

/-- The last byte. -/
def countTail1 : List UInt8 → List UInt8 → Nat
  | x :: _, y :: _ => if x = y then 1 else 0
  | _, _ => 0

/-- The last two bytes, then the last one. -/
def countTail2 (ra rb : List UInt8) : Nat :=
  if (2 ≤ ra.length ∧ 2 ≤ rb.length) ∧ ra.take 2 = rb.take 2 then
    2 + countTail1 (ra.drop 2) (rb.drop 2)
  else countTail1 ra rb

/-- The last four bytes, then the last two and the last one. -/
def countTail4 (t : Target) (ra rb : List UInt8) : Nat :=
  if 4 ≤ ra.length ∧ 4 ≤ rb.length then
    let diff := neNat t (ra.take 4) ^^^ neNat t (rb.take 4)
    if diff ≠ 0 then trailingZeros 32 (toLe t 4 diff) / 8
    else 4 + countTail2 (ra.drop 4) (rb.drop 4)
  else countTail2 ra rb

/-- Counts the common prefix of `a` and `b`: 8 bytes at a time, then 4/2/1. -/
def countSameBytesLong (t : Target) (a b : List UInt8) : Nat :=
  let n := min a.length b.length
  let a := a.take n
  let b := b.take n
  let (num, stop) := countChunks t (n / 8) a b
  if stop then num else num + countTail4 t (a.drop (n / 8 * 8)) (b.drop (n / 8 * 8))

/-- Counts matching bytes between `input[cur..]` and `source[candidate..]`,
stopping `endOffset` bytes before the end of the input: the count, and `cur`
advanced by it. -/
def countSameBytes (t : Target) (input : List UInt8) (cur : Nat) (source : List UInt8)
    (candidate endOffset : Nat) : Run (Nat × Nat) := do
  let stop ← Run.sub input.length endOffset
  Run.assert (cur ≤ stop)
  let a := seg input cur (stop - cur)
  Run.assert (candidate ≤ source.length)
  let b := source.drop candidate
  let num :=
    if 8 ≤ a.length ∧ 8 ≤ b.length then
      let diff := neNat t (a.take 8) ^^^ neNat t (b.take 8)
      if diff ≠ 0 then trailingZeros 64 (toLe t 8 diff) / 8
      else 8 + countSameBytesLong t (a.drop 8) (b.drop 8)
    else countSameBytesLong t a b
  return (num, cur + num)

/-- Reads 4 bytes at `pos` (native-endian). -/
def rd32 (t : Target) (src : List UInt8) (pos : Nat) : Run Nat := do
  return neNat t (← Run.chunk src pos 4)

/-- Reads 8 bytes at `pos` (native-endian). -/
def rd64 (t : Target) (src : List UInt8) (pos : Nat) : Run Nat := do
  return neNat t (← Run.chunk src pos 8)

/-- `rd64 src pos` for a `pos` the caller knows is at most `limit`. -/
def rd64Upto (t : Target) (src : List UInt8) (pos limit : Nat) : Run Nat := do
  Run.assert (pos ≤ limit)
  rd64 t src (min pos limit)

/-- The first four bytes in memory of eight bytes read with `rd64`. -/
def first4 (t : Target) (v : Nat) : Nat := neNat t ((neBytes t 8 v).take 4)

/-- Knuth's multiplicative hash constant. -/
abbrev KNUTH : Nat := 2654435761

def PRIME5 (t : Target) : Nat :=
  if t.bigEndian then 11400714785074694791 else 889523592379

/-- What `N` buckets leave of a word of `bits` bits to shift out. -/
def bucketShift (bits N : Nat) : Run Nat := do
  let s ← Run.sub bits N.log2
  Run.assert (s < bits)
  return s

/-- Hash of the first five bytes in memory (64-bit), or the first four
(32-bit), onto `N` buckets. -/
def hashN (t : Target) (N bytes : Nat) : Run Nat :=
  match t.width with
  | .w64 => do
    let s ← bucketShift 64 N
    return bytes * 2 ^ 24 % 2 ^ 64 * PRIME5 t % 2 ^ 64 / 2 ^ s
  | .w32 => do
    let s ← bucketShift 32 N
    return first4 t bytes * KNUTH % 2 ^ 32 / 2 ^ s

abbrev DEFAULT_NODICT_ENTRIES : Nat := 2 * 1024
abbrev DEFAULT_DICT_ENTRIES : Nat := 4 * 1024

/-- Smallest permitted hash-table entry count. -/
abbrev MIN_ENTRIES : Nat := 256

/-- Compile-time validation of an entry count. -/
def assertValidEntries (N : Nat) : Prop := 2 ^ N.log2 = N ∧ N ≥ MIN_ENTRIES

instance (N : Nat) : Decidable (assertValidEntries N) := inferInstanceAs (Decidable (_ ∧ _))

/-- A hash table with `N` entries of `w` bits. -/
structure HashTable (w N : Nat) where
  dict : Vector (BitVec w) N

/-- A hash table of 16-bit values. -/
abbrev HashTableU32U16 (N : Nat) := HashTable 16 N

/-- A hash table of 32-bit values. -/
abbrev HashTableU32 (N : Nat) := HashTable 32 N

namespace HashTable

variable {w N : Nat}

/-- The zeroed table. -/
def zero (w N : Nat) : HashTable w N := ⟨Vector.replicate N 0#w⟩

def new (w N : Nat) : Run (HashTable w N) := do
  Run.assert (assertValidEntries N)
  return zero w N

/-- Looks up a table entry by hash index. -/
def getAt (T : HashTable w N) (idx : Nat) : Run Nat :=
  if h : idx < N then .ret T.dict[idx].toNat else .panic

/-- Stores a position at the given hash index. -/
def putAt (T : HashTable w N) (idx val : Nat) : Run (HashTable w N) :=
  if h : idx < N then .ret ⟨T.dict.set idx (BitVec.ofNat w val) h⟩ else .panic

/-- Zeroes all entries. -/
def clear (_ : HashTable w N) : HashTable w N := zero w N

/-- Subtracts `offset` from all entries (saturating). -/
def reposition (T : HashTable w N) (offset : Nat) : HashTable w N :=
  ⟨T.dict.map fun i => BitVec.ofNat w (i.toNat - offset)⟩

/-- Hashes `input[pos..]`. Reads 8 bytes. -/
def getHashAt (t : Target) (N : Nat) (input : List UInt8) (pos : Nat) : Run Nat := do
  hashN t N (← rd64 t input pos)

end HashTable

end Lz4rip.Impl
