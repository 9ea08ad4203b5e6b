import Lz4rip.Framework.Greedy
import Lz4rip.Impl.Encode.Dict

/-!
# The dictionary of a training

The samples are put together, and each position has the hash of the d-mer there. A
hash weighs as much as there are d-mers with it inside of samples. Segments of a
quarter of the dictionary are selected greedily (`selection`), and the last part of
what is selected comes first (`dictionary`).
-/

namespace Lz4rip.Spec.Cover

open Impl (D)

/-- The hash of a d-mer. -/
def dmerHash (dmer : List UInt8) : Nat := leNat dmer * 0x9E3779B97F4A7C15 % 2 ^ 16

/-- The hash of the d-mer at a position. -/
def hashAt (bytes : List UInt8) (i : Nat) : Nat := dmerHash (seg bytes i D)

/-- The hashes of a sample. -/
def hashes (sample : List UInt8) : List Nat :=
  (List.range (sample.length + 1 - D)).map (hashAt sample)

/-- How often a hash is there. -/
def weight (samples : List (List UInt8)) (h : Nat) : Nat := (samples.flatMap hashes).count h

/-- A dictionary of `dictSize` bytes has so many segments of `k` bytes at most. -/
def rounds (dictSize k : Nat) : Nat := (dictSize + (k - 1)) / k

/-- The segments that are selected, each by its position and its score, from the best
one on. -/
def selection (samples : List (List UInt8)) (dictSize : Nat) : List (Nat × Nat) :=
  let bytes := samples.flatten
  let k := dictSize / 4
  if bytes.length < D ∨ bytes.length < k then []
  else greedy (hashAt bytes) (bytes.length - k + 1) (k - D + 1) k (rounds dictSize k)
    (weight samples) fun _ => false

/-- Five segments can be picked, one after the other: each time the first that covers most
of the d-mers which those before it do not cover. -/
def FifthSegment (samples : List (List UInt8)) (dictSize : Nat) : Prop :=
  let bytes := samples.flatten
  let k := dictSize / 4
  ∃ ps, ps.length = 5 ∧
    Picked (hashAt bytes) (bytes.length - k + 1) (k - D + 1) k (weight samples) [] ps

/-- The bytes of a segment. -/
def segment (samples : List (List UInt8)) (dictSize : Nat) (s : Nat × Nat) : List UInt8 :=
  seg samples.flatten s.1 (dictSize / 4)

/-- All samples where they are shorter than a segment, else the segments from the
last one selected to the first, cut at the end. -/
def dictionary (samples : List (List UInt8)) (dictSize : Nat) : List UInt8 :=
  if samples.flatten.length < D ∨ samples.flatten.length < dictSize / 4 then
    samples.flatten.take dictSize
  else ((selection samples dictSize).reverse.flatMap (segment samples dictSize)).take dictSize

/-- A selection of five segments at least. -/
theorem fifthSegment_iff {samples : List (List UInt8)} {dictSize : Nat}
    (h : ¬ (samples.flatten.length < D ∨ samples.flatten.length < dictSize / 4))
    (hr : 5 ≤ rounds dictSize (dictSize / 4)) :
    FifthSegment samples dictSize ↔ 5 ≤ (selection samples dictSize).length := by
  simp only [selection, if_neg h]
  exact (le_length_greedy [] hr).symm

theorem length_dictionary_le (samples : List (List UInt8)) (dictSize : Nat) :
    (dictionary samples dictSize).length ≤ dictSize := by
  unfold dictionary
  split
  · exact List.length_take_le _ _
  · exact List.length_take_le _ _

end Lz4rip.Spec.Cover
