import Lz4rip.Impl.Core

/-!
# `dict.rs`: `DictTrainer`

`checks` says whether arithmetic that overflows panics, as in a debug build, or
wraps, as in a release build. The vector `freqs` has `FREQ_SIZE` counters; it is a
function of the index here.
-/

namespace Lz4rip.Impl

abbrev D : Nat := 8
abbrev FREQ_BITS : Nat := 16
abbrev FREQ_SIZE : Nat := 1 <<< FREQ_BITS
abbrev FREQ_MASK : Nat := FREQ_SIZE - 1

section

variable (t : Target) (checks : Bool)

/-- `hash_dmer`. -/
def hashDmer (data : List UInt8) : Run Nat := do
  let bytes ← Run.chunk data 0 8
  return leNat bytes * 0x9E3779B97F4A7C15 % 2 ^ 64 % t.modulus

/-! ## `cover_select` -/

/-- `concat`, and where each sample starts and the last one ends. -/
def concatSamples (samples : List (List UInt8)) : List UInt8 × List Nat :=
  let (concat, offsets) := samples.foldl
    (fun (concat, offsets) sample => (concat ++ sample, offsets ++ [concat.length])) ([], [])
  (concat, offsets ++ [concat.length])

/-- `hashes`. -/
def hashDmers (concat : List UInt8) (numDmers : Nat) : Run (List Nat) :=
  Run.forRange 0 numDmers (fun i hashes => do
    let hash ← hashDmer t (← Run.chunk concat i D)
    Run.storeAt hashes i [hash &&& FREQ_MASK]) (List.replicate numDmers 0)

/-- `freqs[h]`. -/
def freqAt (freqs : Nat → Nat) (h : Nat) : Run Nat :=
  if h < FREQ_SIZE then .ret (freqs h) else .panic

/-- `freqs[h] = n`. -/
def setFreq (freqs : Nat → Nat) (h n : Nat) : Run (Nat → Nat) :=
  if h < FREQ_SIZE then .ret fun i => if i = h then n else freqs i else .panic

/-- How often each hash is there, of the d-mers that lie in one sample. -/
def countDmers (count : Nat) (offsets hashes : List Nat) : Run (Nat → Nat) :=
  Run.forRange 0 count (fun s freqs => do
    let start ← Run.index offsets s
    let stop ← Run.index offsets (s + 1)
    let len ← Run.subWith checks t.modulus stop start
    if len < D then return freqs
    else do
      let stop ← Run.addWith checks t.modulus (← Run.subWith checks t.modulus stop D) 1
      Run.forRange start stop (fun i freqs => do
        let h ← Run.index hashes i
        setFreq freqs h (← Run.addWith checks (2 ^ 32) (← freqAt freqs h) 1)) freqs) fun _ => 0

/-- `prefix`. -/
def prefixSums (numDmers : Nat) (hashes : List Nat) (freqs : Nat → Nat) : Run (List Nat) :=
  Run.forRange 0 numDmers (fun i sums => do
    let freq ← freqAt freqs (← Run.index hashes i)
    let sum ← Run.addWith checks (2 ^ 64) (← Run.index sums i) freq
    Run.storeAt sums (i + 1) [sum]) (List.replicate (numDmers + 1) 0)

/-- `best_pos` and `best_score`, of the positions up to `last`. -/
def bestSegment (segDmers last : Nat) (sums : List Nat) (used : List Bool) : Run (Nat × Nat) :=
  Run.forRange 0 (last + 1) (fun pos best => do
    if (← Run.index used pos) = true then return best
    else do
      let stop ← Run.index sums (← Run.addWith checks t.modulus pos segDmers)
      let score ← Run.subWith checks (2 ^ 64) stop (← Run.index sums pos)
      if score > best.2 then return (pos, score) else return best) (0, 0)

/-- The state of the loop over the segments. -/
structure Rounds where
  freqs : Nat → Nat
  used : List Bool
  segments : List (Nat × Nat)
  collected : Nat

/-- One iteration of the loop over the segments. -/
def coverRound (dictSize k segDmers numDmers : Nat) (concat : List UInt8) (hashes : List Nat)
    (r : Rounds) : Run (Run.Flow Rounds (List (Nat × Nat))) :=
  if r.collected < dictSize then do
    let sums ← prefixSums checks numDmers hashes r.freqs
    let last ← Run.subWith checks t.modulus concat.length k
    let (bestPos, bestScore) ← bestSegment t checks segDmers last sums r.used
    if bestScore = 0 then return .done r.segments
    else do
      let stop ← Run.addWith checks t.modulus bestPos segDmers
      let freqs ← Run.forRange bestPos stop
        (fun i freqs => do setFreq freqs (← Run.index hashes i) 0) r.freqs
      let used ← Run.storeAt r.used bestPos (List.replicate k true)
      let collected ← Run.addWith checks t.modulus r.collected k
      return .next ⟨freqs, used, r.segments ++ [(bestPos, bestScore)], collected⟩
  else return .done r.segments

/-- What `cover_select` comes to before it puts the dictionary together: a result
that is returned early, or the segments that it has selected. -/
inductive Selected where
  | whole (dict : List UInt8)
  | segments (concat : List UInt8) (k : Nat) (segments : List (Nat × Nat))
  deriving DecidableEq, Repr

/-- `cover_select` up to its last loop. -/
def coverSegments (samples : List (List UInt8)) (dictSize : Nat) : Run Selected := do
  let (concat, offsets) := concatSamples samples
  if concat.length < D then return .whole (concat.take (min dictSize concat.length))
  else do
    let numDmers ← Run.addWith checks t.modulus (← Run.subWith checks t.modulus concat.length D) 1
    let hashes ← hashDmers t concat numDmers
    let freqs ← countDmers t checks samples.length offsets hashes
    let k := dictSize / 4
    if concat.length < k then return .whole concat
    else do
      let segDmers ← Run.addWith checks t.modulus (← Run.subWith checks t.modulus k D) 1
      let segments ← Run.loop (coverRound t checks dictSize k segDmers numDmers concat hashes)
        (dictSize + 1) ⟨freqs, List.replicate concat.length false, [], 0⟩
      return .segments concat k segments

/-- The last loop of `cover_select`, over the segments from the last one selected to
the first. -/
def assemble (concat : List UInt8) (k dictSize : Nat) :
    List (Nat × Nat) → List UInt8 → Run (List UInt8)
  | [], dict => return dict
  | (pos, _) :: segments, dict => do
    let stop := min (← Run.addWith checks t.modulus pos k) concat.length
    Run.assert (pos ≤ stop)
    let dict := dict ++ (← Run.chunk concat pos (stop - pos))
    if dict.length ≥ dictSize then return dict else assemble concat k dictSize segments dict

def coverSelect (samples : List (List UInt8)) (dictSize : Nat) : Run (List UInt8) := do
  match ← coverSegments t checks samples dictSize with
  | .whole dict => return dict
  | .segments concat k segments =>
    let dict ← assemble t checks concat k dictSize segments.reverse []
    return dict.take dictSize

end

/-! ## The trainer -/

structure DictTrainer where
  maxDictSize : Nat
  samples : List (List UInt8)
  totalBytes : Nat
  deriving DecidableEq, Repr

namespace DictTrainer

def new (maxDictSize : Nat) : DictTrainer := ⟨min maxDictSize MAX_DISTANCE, [], 0⟩

def sampleCount (T : DictTrainer) : Nat := T.samples.length

section

variable (t : Target) (checks : Bool)

/-- One iteration of the loop in `add_sample`, which makes room for `len` bytes. -/
def evictStep (budget len : Nat) (T : DictTrainer) : Run (Run.Flow DictTrainer DictTrainer) := do
  let needed ← Run.addWith checks t.modulus T.totalBytes len
  if needed > budget ∧ T.samples ≠ [] then do
    let front ← Run.unwrap T.samples.head?
    let totalBytes ← Run.subWith checks t.modulus T.totalBytes front.length
    return .next { T with samples := T.samples.tail, totalBytes }
  else return .done T

def addSample (data : List UInt8) (T : DictTrainer) : Run DictTrainer :=
  if data.length < MINMATCH ∨ data.length > T.maxDictSize then return T
  else do
    let budget ← Run.mulWith checks t.modulus T.maxDictSize 8
    let T ← Run.loop (evictStep t checks budget data.length) (T.samples.length + 1) T
    let totalBytes ← Run.addWith checks t.modulus T.totalBytes data.length
    return { T with samples := T.samples ++ [data], totalBytes }

/-- `add_sample`, one call after the other. -/
def addSamples : List (List UInt8) → DictTrainer → Run DictTrainer
  | [], T => return T
  | data :: added, T => do addSamples added (← addSample t checks data T)

def train (T : DictTrainer) : Run (List UInt8) :=
  if T.samples.length < 2 then return []
  else coverSelect t checks T.samples T.maxDictSize

end

end DictTrainer

end Lz4rip.Impl
