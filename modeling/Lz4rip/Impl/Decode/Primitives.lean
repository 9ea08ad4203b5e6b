import Lz4rip.Impl.Core

/-!
# `lz4rip-decode`, `primitives.rs`: copies

The copies take the buffer and return it changed. A `Window` is a mutable
sub-slice: where it starts in the buffer, and its length, which bounds the
accesses made through it. A sum that is the end of a slice is computed exactly,
since a slice is no longer than `isize::MAX`; a sum past it would panic too.
-/

namespace Lz4rip.Impl

/-- Chunk size of short match copies. -/
abbrev MATCH_CHUNK : Nat := 8

/-- Chunk size of long match steps and short literal copies. -/
abbrev WIDE_CHUNK : Nat := 2 * MATCH_CHUNK

/-- Chunk size of long literal copies, and the slack long copies need. -/
abbrev LONG_CHUNK : Nat := 2 * WIDE_CHUNK

/-- Smallest offset copied rather than filled. -/
abbrev MIN_COPY_OFFSET : Nat := 2

/-- Match length up to which `wildCopyMatchLong` copies without a loop. -/
abbrev LONG_UNROLLED : Nat := 2 * LONG_CHUNK

/-- Match length nibble mask. -/
abbrev ML_MASK : Nat := 15

/-- Literal length nibble mask. -/
abbrev RUN_MASK : Nat := 15

/-- Longest match a token encodes without an extension byte. -/
abbrev SHORT_MATCH_MAX : Nat := MINMATCH + ML_MASK - 1

/-- `i as u32 as usize`. -/
def idx (i : Nat) : Nat := i % 2 ^ 32

/-- A sub-slice: its first index in the buffer and its length. -/
structure Window where
  start : Nat
  len : Nat

/-- The `len` bytes of `buf` that end at `stop`. -/
def tailWindow (buf : List UInt8) (stop len : Nat) : Run Window := do
  Run.assert (stop ≤ buf.length)
  let start ← Run.sub stop len
  return ⟨start, len⟩

/-- Copies `n` bytes within the window from `src` to `dst`, loading before
storing. -/
def copyChunk (n : Nat) (buf : List UInt8) (w : Window) (src dst : Nat) : Run (List UInt8) := do
  Run.assert (src + n ≤ w.len)
  Run.assert (dst + n ≤ w.len)
  let c ← Run.chunk buf (w.start + src) n
  Run.storeAt buf (w.start + dst) c

/-- Three sequential copies that cover `SHORT_MATCH_MAX` bytes. -/
def wildMatchCopy18 (buf : List UInt8) (dstPos offset advance : Nat) :
    Run (List UInt8 × Nat) := do
  Run.assert (offset ≥ MATCH_CHUNK)
  Run.assert (advance ≤ SHORT_MATCH_MAX)
  let w ← tailWindow buf (dstPos + SHORT_MATCH_MAX) (offset + SHORT_MATCH_MAX)
  let buf ← copyChunk MATCH_CHUNK buf w 0 offset
  let buf ← copyChunk MATCH_CHUNK buf w MATCH_CHUNK (offset + MATCH_CHUNK)
  let buf ← copyChunk (SHORT_MATCH_MAX - 2 * MATCH_CHUNK) buf w (2 * MATCH_CHUNK)
    (offset + 2 * MATCH_CHUNK)
  return (buf, dstPos + advance)

/-- The loop of `wildCopyMatchLong`: `WIDE_CHUNK` steps, two at a time. -/
def wildCopyMatchLongLoop (w : Window) (offset len : Nat) (s : List UInt8 × Nat) :
    Run (Run.Flow (List UInt8 × Nat) (List UInt8)) :=
  let (buf, done) := s
  if done < len then do
    let buf ← copyChunk WIDE_CHUNK buf w done (offset + done)
    let buf ← copyChunk WIDE_CHUNK buf w (done + WIDE_CHUNK) (offset + done + WIDE_CHUNK)
    return .next (buf, done + LONG_CHUNK)
  else return .done buf

/-- Long match wildcopy for `offset ≥ WIDE_CHUNK`. -/
def wildCopyMatchLong (buf : List UInt8) (dst offset len : Nat) : Run (List UInt8) := do
  Run.assert (offset ≥ WIDE_CHUNK)
  if len > LONG_UNROLLED ∧ offset ≥ len then
    -- Long and disjoint from its source: one exact copy.
    Run.assert (dst ≤ buf.length)
    let src ← Run.sub dst offset
    Run.assert (src + len ≤ dst)
    Run.storeAt buf dst (seg buf src len)
  else
    let w ← tailWindow buf (dst + len + LONG_CHUNK) (offset + len + LONG_CHUNK)
    let buf ← copyChunk WIDE_CHUNK buf w 0 offset
    let buf ← copyChunk WIDE_CHUNK buf w WIDE_CHUNK (offset + WIDE_CHUNK)
    if len > LONG_CHUNK then
      let buf ← copyChunk WIDE_CHUNK buf w LONG_CHUNK (offset + LONG_CHUNK)
      let buf ← copyChunk WIDE_CHUNK buf w (LONG_CHUNK + WIDE_CHUNK)
        (offset + LONG_CHUNK + WIDE_CHUNK)
      Run.loop (wildCopyMatchLongLoop w offset len) (len + 1) (buf, LONG_UNROLLED)
    else return buf

/-- `pattern[i]` for each `i` of the list: the window below `offset`, and the
pattern itself from there on. -/
def spreadPattern (window : List UInt8) (offset : Nat) : List UInt8 → List Nat →
    Run (List UInt8)
  | pattern, [] => return pattern
  | pattern, i :: is => do
    let b ← if i < offset then Run.index window i else do
      Run.index pattern (← Run.sub i offset)
    spreadPattern window offset (pattern.set i b) is

/-- The loop of `wildCopyMatchShortOffset`: the pattern every `step` bytes. -/
def storePatternLoop (w : Window) (pattern : List UInt8) (offset len step : Nat)
    (s : List UInt8 × Nat) : Run (Run.Flow (List UInt8 × Nat) (List UInt8)) :=
  let (buf, done) := s
  if done < len then do
    Run.assert (offset + done + MATCH_CHUNK ≤ w.len)
    let buf ← Run.storeAt buf (w.start + (offset + done)) pattern
    return .next (buf, done + step)
  else return .done buf

/-- Match wildcopy for `MIN_COPY_OFFSET ≤ offset < MATCH_CHUNK`. -/
def wildCopyMatchShortOffset (buf : List UInt8) (dstPos offset len : Nat) :
    Run (List UInt8 × Nat) := do
  Run.assert (MIN_COPY_OFFSET ≤ offset ∧ offset < MATCH_CHUNK)
  let w ← tailWindow buf (dstPos + len + MATCH_CHUNK) (offset + len + MATCH_CHUNK)
  let window := seg buf w.start w.len
  let first ← Run.index window 0
  let pattern := List.replicate MATCH_CHUNK first
  let pattern ← Run.storeAt pattern 0 (← Run.chunk window 0 MIN_COPY_OFFSET)
  let pattern ← spreadPattern window offset pattern
    (List.range' MIN_COPY_OFFSET (MATCH_CHUNK - MIN_COPY_OFFSET))
  let step := MATCH_CHUNK - MATCH_CHUNK % offset
  let buf ← Run.loop (storePatternLoop w pattern offset len step) (len + 1) (buf, 0)
  return (buf, dstPos + len)

/-- Copies exactly `len` bytes from `src[srcPos..]` to `dst[dstPos..]`. -/
def copyFromSrc (src : List UInt8) (srcPos : Nat) (dst : List UInt8) (dstPos len : Nat) :
    Run (List UInt8 × Nat) := do
  let c ← Run.chunk src srcPos len
  let dst ← Run.storeAt dst dstPos c
  return (dst, dstPos + len)

/-- The loop of `copyWithinOverlapping`: `out` and how much of it is written. -/
def doublingLoop (matchLen : Nat) (s : List UInt8 × Nat) :
    Run (Run.Flow (List UInt8 × Nat) (List UInt8)) :=
  let (out, written) := s
  if written < matchLen then do
    let copyLen := min written (matchLen - written)
    let out ← Run.storeAt out written (← Run.chunk (out.take written) 0 copyLen)
    return .next (out, written + copyLen)
  else return .done out

/-- Overlapping match copy for `offset ≥ MIN_COPY_OFFSET`: seeds with `offset`
bytes, then doubles the written region. -/
def copyWithinOverlapping (buf : List UInt8) (start dstPos matchLen offset : Nat) :
    Run (List UInt8 × Nat) := do
  Run.assert (offset ≥ MIN_COPY_OFFSET)
  Run.assert (dstPos = start + offset)
  Run.assert (dstPos ≤ buf.length)
  let initial := min offset matchLen
  let history := buf.take dstPos
  let out ← Run.chunk buf dstPos matchLen
  let out ← Run.storeAt out 0 (← Run.chunk history start initial)
  let out ← Run.loop (doublingLoop matchLen) (matchLen + 1) (out, initial)
  return (store buf dstPos out, dstPos + matchLen)

/-- Copies the chunks of `s` to `dst[dstPos..]`, one `LONG_CHUNK` each. -/
def copyChunks (s dst : List UInt8) (dstPos : Nat) : Nat → List UInt8
  | 0 => dst
  | k + 1 => store (copyChunks s dst dstPos k) (dstPos + k * LONG_CHUNK)
      (seg s (k * LONG_CHUNK) LONG_CHUNK)

/-- Copies `len` literals in `LONG_CHUNK` chunks; both slices need `LONG_CHUNK`
bytes of slack past `len`. -/
def copyLiterals32 (src : List UInt8) (srcPos : Nat) (dst : List UInt8) (dstPos len : Nat) :
    Run (List UInt8) := do
  let chunks := (len + LONG_CHUNK - 1) / LONG_CHUNK
  let s ← Run.chunk src srcPos (chunks * LONG_CHUNK)
  Run.assert (dstPos + chunks * LONG_CHUNK ≤ dst.length)
  return copyChunks s dst dstPos chunks

/-- Literal wildcopy in `LONG_CHUNK` chunks. -/
def wildCopyLiterals (src : List UInt8) (srcPos : Nat) (dst : List UInt8) (dstPos len : Nat) :
    Run (List UInt8 × Nat) := do
  let dst ← copyLiterals32 src srcPos dst dstPos len
  return (dst, dstPos + len)

/-- The loop of `wildCopyMatch`, which copies once before it looks at `len`. -/
def wildCopyMatchLoop (step : Nat) (w : Window) (offset len : Nat) (s : List UInt8 × Nat) :
    Run (Run.Flow (List UInt8 × Nat) (List UInt8)) := do
  let (buf, done) := s
  let buf ← copyChunk step buf w done (offset + done)
  let done := done + step
  return if done ≥ len then .done buf else .next (buf, done)

/-- Match wildcopy for `offset ≥ step` in `step`-byte chunks, from `src`. -/
def wildCopyMatch (step : Nat) (buf : List UInt8) (src dstPos len : Nat) :
    Run (List UInt8 × Nat) := do
  let offset ← Run.sub dstPos src
  Run.assert (offset ≥ step)
  let w ← tailWindow buf (dstPos + len + step) (offset + len + step)
  let buf ← Run.loop (wildCopyMatchLoop step w offset len) (len + 1) (buf, 0)
  return (buf, dstPos + len)

/-- Match wildcopy for `offset ≥ MATCH_CHUNK`. -/
def wildCopyMatch8 (buf : List UInt8) (src dstPos len : Nat) : Run (List UInt8 × Nat) :=
  wildCopyMatch MATCH_CHUNK buf src dstPos len

/-- Match wildcopy for `offset ≥ WIDE_CHUNK`. -/
def wildCopyMatch16 (buf : List UInt8) (src dstPos len : Nat) : Run (List UInt8 × Nat) :=
  wildCopyMatch WIDE_CHUNK buf src dstPos len

/-- Match wildcopy for `offset ≥ WIDE_CHUNK`, one `LONG_CHUNK` per step. -/
def wildCopyMatch32 (buf : List UInt8) (src dstPos len : Nat) : Run (List UInt8 × Nat) := do
  let offset ← Run.sub dstPos src
  let buf ← wildCopyMatchLong buf dstPos offset len
  return (buf, dstPos + len)

/-- Non-overlapping copy of `len` bytes within `buf`. -/
def copyWithinNonoverlap (buf : List UInt8) (src dstPos len : Nat) : Run (List UInt8 × Nat) := do
  Run.assert (src + len ≤ dstPos)
  Run.assert (dstPos ≤ buf.length)
  let c ← Run.chunk (buf.take dstPos) src len
  let buf ← Run.storeAt buf dstPos c
  return (buf, dstPos + len)

end Lz4rip.Impl
