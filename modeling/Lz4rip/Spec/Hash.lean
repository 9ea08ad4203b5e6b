import Lz4rip.Impl.Frame.Header

/-!
# The hash

`Lawful` is what the frame format relies on of the hash: it is the same however
the bytes are cut, and in one call. XXH32 is lawful (`xxHash32_lawful`).
-/

namespace Lz4rip.Spec

open Lz4rip.Impl

/-- Writes of one piece after the other are a write of both, and `oneshot` is a
write of all. -/
structure Lawful (X : XxHash32) : Prop where
  write_append : ∀ s a b, X.write (X.write s a) b = X.write s (a ++ b)
  oneshot : ∀ seed data, X.oneshot seed data = (X.finish (X.write (X.withSeed seed) data)).toUInt32

namespace XXH32

abbrev PRIME1 : UInt32 := 2654435761
abbrev PRIME2 : UInt32 := 2246822519
abbrev PRIME3 : UInt32 := 3266489917
abbrev PRIME4 : UInt32 := 668265263
abbrev PRIME5 : UInt32 := 374761393

def rotl (x : UInt32) (n : UInt32) : UInt32 := (x <<< n) ||| (x >>> (32 - n))

def round (acc : UInt32) (lane : List UInt8) : UInt32 := rotl (acc + u32OfLe lane * PRIME2) 13 * PRIME1

/-- The accumulators of the four lanes, after the stripes of 16 bytes. -/
def stripes : Nat → UInt32 × UInt32 × UInt32 × UInt32 → List UInt8 → UInt32 × UInt32 × UInt32 × UInt32
  | 0, acc, _ => acc
  | n + 1, (a, b, c, d), data => stripes n
    (round a (data.take 4), round b ((data.drop 4).take 4), round c ((data.drop 8).take 4),
      round d ((data.drop 12).take 4)) (data.drop 16)

/-- The words and the bytes behind the last stripe. -/
def tail : UInt32 → List UInt8 → UInt32
  | h, a :: b :: c :: d :: data => tail (rotl (h + u32OfLe [a, b, c, d] * PRIME3) 17 * PRIME4) data
  | h, a :: data => tail (rotl (h + a.toUInt32 * PRIME5) 11 * PRIME1) data
  | h, [] => h

def avalanche (h : UInt32) : UInt32 :=
  let h := (h ^^^ (h >>> 15)) * PRIME2
  let h := (h ^^^ (h >>> 13)) * PRIME3
  h ^^^ (h >>> 16)

def hash (seed : UInt32) (data : List UInt8) : UInt32 :=
  let n := data.length / 16
  let start := if n = 0 then seed + PRIME5 else
    let (a, b, c, d) := stripes n (seed + PRIME1 + PRIME2, seed + PRIME2, seed, seed - PRIME1) data
    rotl a 1 + rotl b 7 + rotl c 12 + rotl d 18
  avalanche (tail (start + .ofNat data.length) (data.drop (16 * n)))

end XXH32

/-- XXH32, of the seed and the bytes written so far. -/
def xxHash32 : XxHash32 where
  State := UInt32 × List UInt8
  withSeed seed := (seed, [])
  write s bytes := (s.1, s.2 ++ bytes)
  finish s := (XXH32.hash s.1 s.2).toUInt64
  oneshot := XXH32.hash

theorem xxHash32_lawful : Lawful xxHash32 where
  write_append s a b := congrArg (Prod.mk s.1) (List.append_assoc s.2 a b)
  oneshot _ _ := by simp [xxHash32]

example : XXH32.hash 0 [97, 98, 99] = 0x32D153FF := by decide

end Lz4rip.Spec
