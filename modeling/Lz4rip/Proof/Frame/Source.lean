import Lz4rip.Proof.Frame.Block
import Lz4rip.Spec.Stream

/-!
# The encoder's source window

`Source` is the buffer that blocks are taken from: the live part, of which the
end waits for its block, and where the history before that is, if it has been
moved behind (`extLen`). It changes in two ways: bytes are added
(`Source.fill`), and after a block room is made for the next one
(`Source.slide`). Both keep what `Sourced` says: the two parts are apart, and
together they are the end of the frame's content, far enough back for a match.
-/

namespace Lz4rip.Proof.Frame

open Lz4rip.Impl
open Lz4rip.Impl.FrameEncoder
open Spec (Frame blockLimit)

structure Source where
  data : List UInt8
  capacity : Nat
  start : Nat
  stop : Nat
  extOffset : Nat
  extLen : Nat

namespace Source

/-- What waits for its block. -/
def pending (s : Source) : List UInt8 := seg s.data s.start (s.stop - s.start)

/-- The history that is behind the live part. -/
def extDict (s : Source) : List UInt8 := seg s.data s.extOffset s.extLen

def fill (s : Source) (bytes : List UInt8) : Source :=
  { s with data := store s.data s.stop bytes, stop := s.stop + bytes.length }

/-- After a block of all that was waiting. -/
def slide (info : FrameInfo) (s : Source) : Source :=
  match info.blockMode with
  | .independent => { s with start := 0, stop := 0 }
  | .linked =>
    if s.stop ≥ blockLimit info.blockSize + WINDOW_SIZE then
      { s with start := 0, stop := 0, extOffset := s.stop - WINDOW_SIZE, extLen := WINDOW_SIZE }
    else
      let delta := min s.extLen (s.stop + s.extLen - WINDOW_SIZE)
      { s with start := s.stop, extOffset := s.extOffset + delta, extLen := s.extLen - delta }

/-- How far the positions of the stream move on with it. -/
def moved (info : FrameInfo) (s : Source) : Nat :=
  match info.blockMode with
  | .independent => s.stop - s.start
  | .linked => if s.stop ≥ blockLimit info.blockSize + WINDOW_SIZE then s.stop else 0

section

variable {info : FrameInfo} {s : Source}

theorem slide_independent (hm : info.blockMode = .independent) :
    s.slide info = { s with start := 0, stop := 0 } ∧ s.moved info = s.stop - s.start := by
  unfold slide moved
  rw [hm]
  exact ⟨rfl, rfl⟩

/-- The last bytes of the live part become the external dictionary. -/
theorem slide_wraps (hm : info.blockMode = .linked)
    (hw : s.stop ≥ blockLimit info.blockSize + WINDOW_SIZE) :
    s.slide info =
      { s with start := 0, stop := 0, extOffset := s.stop - WINDOW_SIZE, extLen := WINDOW_SIZE } ∧
    s.moved info = s.stop := by
  unfold slide moved
  rw [hm]
  exact ⟨if_pos hw, if_pos hw⟩

/-- The external dictionary gives way at its front. -/
theorem slide_stays (hm : info.blockMode = .linked)
    (hw : ¬ s.stop ≥ blockLimit info.blockSize + WINDOW_SIZE) :
    s.slide info = { s with
      start := s.stop
      extOffset := s.extOffset + min s.extLen (s.stop + s.extLen - WINDOW_SIZE)
      extLen := s.extLen - min s.extLen (s.stop + s.extLen - WINDOW_SIZE) } ∧
    s.moved info = 0 := by
  unfold slide moved
  rw [hm]
  exact ⟨if_neg hw, if_neg hw⟩

/-- Nothing waits for the next block yet. -/
theorem slide_empty (info : FrameInfo) (s : Source) : (s.slide info).start = (s.slide info).stop := by
  cases hm : info.blockMode with
  | independent => rw [(slide_independent hm).1]
  | linked =>
    by_cases hw : s.stop ≥ blockLimit info.blockSize + WINDOW_SIZE
    · rw [(slide_wraps hm hw).1]
    · rw [(slide_stays hm hw).1]

end

end Source

/-- The source holds the end of the frame's content. -/
structure Sourced (f : Frame) (s : Source) : Prop where
  size : f.info.blockSize ≠ .auto
  capacity : s.capacity = srcSize f.info.blockMode (blockLimit f.info.blockSize)
  length_le : s.data.length ≤ s.capacity
  start_le : s.start ≤ s.stop
  stop_le : s.stop ≤ s.data.length
  filled : s.stop ≤ s.start + blockLimit f.info.blockSize
  room : s.start + blockLimit f.info.blockSize ≤ s.capacity
  apart : s.extLen ≠ 0 → s.start + blockLimit f.info.blockSize ≤ s.extOffset ∧
    s.extOffset + s.extLen ≤ s.data.length ∧ s.start + s.extLen = WINDOW_SIZE
  le : s.extLen + s.start ≤ f.content.length
  held : s.extDict ++ s.data.take s.start = last f.content (s.extLen + s.start)
  enough : f.info.blockMode = .linked → min WINDOW_SIZE f.content.length ≤ s.extLen + s.start
  none : f.info.blockMode = .independent → s.extLen = 0 ∧ s.start = 0

theorem last_last {l : List UInt8} {n k : Nat} (hk : k ≤ n) (hn : n ≤ l.length) :
    last (last l n) k = last l k := by
  rw [last, length_last hn, last, last, List.drop_drop]
  congr 1
  omega

theorem last_append_right {a b : List UInt8} {k : Nat} (hk : k ≤ b.length) :
    last (a ++ b) k = last b k := by
  rw [last, last, List.length_append, Nat.add_sub_assoc hk, List.drop_length_add_append]

namespace Sourced

variable {f : Frame} {s : Source}

theorem length_pending (h : Sourced f s) : s.pending.length = s.stop - s.start := by
  have := h.start_le
  have := h.stop_le
  exact length_seg (by omega)

/-- The live part is the history in it and what waits. -/
theorem live (h : Sourced f s) : s.data.take s.start ++ s.pending = s.data.take s.stop := by
  rw [Source.pending, take_append_seg, Nat.add_sub_cancel' h.start_le]

/-- A frame that has just begun. -/
theorem start {info : FrameInfo} {data : List UInt8} {capacity extOffset : Nat}
    (hs : info.blockSize ≠ .auto) (hc : capacity = srcSize info.blockMode (blockLimit info.blockSize))
    (hl : data.length ≤ capacity) : Sourced ⟨info, []⟩ ⟨data, capacity, 0, 0, extOffset, 0⟩ where
  size := hs
  capacity := hc
  length_le := hl
  start_le := Nat.le_refl _
  stop_le := Nat.zero_le _
  filled := Nat.zero_le _
  room := by
    dsimp only
    rw [hc, srcSize]
    split <;> omega
  apart h := absurd rfl h
  le := Nat.zero_le _
  held := rfl
  enough _ := Nat.min_le_right _ _
  none _ := ⟨rfl, rfl⟩

/-- Bytes that there is room for are added to what waits. -/
theorem fill (h : Sourced f s) {bytes : List UInt8}
    (hb : s.stop + bytes.length ≤ s.start + blockLimit f.info.blockSize) :
    Sourced f (s.fill bytes) ∧ (s.fill bytes).pending = s.pending ++ bytes := by
  have hstart := h.start_le
  have hstop := h.stop_le
  have hroom := h.room
  have hlen := h.length_le
  have hmax : (store s.data s.stop bytes).length = max s.data.length (s.stop + bytes.length) :=
    length_store_max hstop
  have htake : (store s.data s.stop bytes).take s.start = s.data.take s.start :=
    take_store_of_le bytes hstop hstart
  have hext : s.extLen ≠ 0 → seg (store s.data s.stop bytes) s.extOffset s.extLen = s.extDict :=
    fun he => seg_store_of_le hstop (by have := (h.apart he).1; omega)
  constructor
  · refine ⟨h.size, h.capacity, ?_, ?_, ?_, hb, hroom, fun he => ?_, h.le, ?_, h.enough, h.none⟩
    · dsimp only [Source.fill]
      omega
    · dsimp only [Source.fill]
      omega
    · dsimp only [Source.fill]
      omega
    · have := h.apart he
      dsimp only [Source.fill] at he ⊢
      omega
    · refine Eq.trans ?_ h.held
      dsimp only [Source.fill, Source.extDict]
      rw [htake]
      by_cases he : s.extLen = 0
      · rw [he, seg_zero, seg_zero]
      · rw [hext he, Source.extDict]
  · have hp : (s.fill bytes).pending =
        ((store s.data s.stop bytes).take (s.stop + bytes.length)).drop s.start := by
      rw [List.drop_take]
      rfl
    rw [hp, take_store bytes hstop, List.drop_append_of_le_length (by rw [List.length_take]; omega),
      List.drop_take]
    rfl

theorem length_extDict (h : Sourced f s) : s.extDict.length = s.extLen := by
  by_cases he : s.extLen = 0
  · rw [Source.extDict, he, seg_zero, List.length_nil]
  · exact length_seg (h.apart he).2.1

/-- The history with what waits behind it. -/
theorem held_pending (h : Sourced f s) :
    s.extDict ++ s.data.take s.stop = last (f.push s.pending).content (s.extLen + s.stop) := by
  have hlen := h.length_pending
  have hstart := h.start_le
  rw [← h.live, ← List.append_assoc, h.held, Frame.push_content, ← last_append h.le, hlen,
    Nat.add_assoc, Nat.add_sub_cancel' hstart]

/-- Room is made for the next block. -/
theorem slide (h : Sourced f s) : Sourced (f.push s.pending) (s.slide f.info) := by
  have hlen := h.length_pending
  have hstart := h.start_le
  have hstop := h.stop_le
  have hfilled := h.filled
  have hle := h.le
  have hheld := h.held_pending
  have hext := h.length_extDict
  have hcap := h.capacity
  have hdata := h.length_le
  have hcontent : (f.push s.pending).content.length = f.content.length + (s.stop - s.start) := by
    rw [Frame.push_content, List.length_append, hlen]
  cases hm : f.info.blockMode with
  | independent =>
    have hnone := (h.none hm).1
    rw [(Source.slide_independent hm).1]
    rw [srcSize, if_neg (by rw [hm]; decide)] at hcap
    refine ⟨h.size, h.capacity, hdata, Nat.le_refl _, Nat.zero_le _, Nat.zero_le _, ?_,
      fun he => absurd hnone he, ?_, ?_, fun hl => absurd (hm.symm.trans hl) (by decide),
      fun _ => ⟨hnone, rfl⟩⟩
    · dsimp only [Frame.push_info]
      omega
    · dsimp only
      omega
    · simp [Source.extDict, hnone, last]
  | linked =>
    rw [srcSize, if_pos hm] at hcap
    have henough := h.enough hm
    by_cases hw : s.stop ≥ blockLimit f.info.blockSize + WINDOW_SIZE
    · rw [(Source.slide_wraps hm hw).1]
      refine ⟨h.size, h.capacity, hdata, Nat.le_refl _, Nat.zero_le _, Nat.zero_le _, ?_, fun _ => ?_,
        ?_, ?_, fun _ => Nat.min_le_left _ _, fun hi => absurd (hm.symm.trans hi) (by decide)⟩
      · dsimp only [Frame.push_info]
        omega
      · dsimp only [Frame.push_info]
        omega
      · dsimp only
        omega
      · have hlast := congrArg (last · WINDOW_SIZE) hheld
        rw [last_last (by omega) (by omega), last_append_right (by rw [List.length_take]; omega),
          last, List.length_take, Nat.min_eq_left hstop, List.drop_take] at hlast
        dsimp only [Source.extDict]
        rw [Nat.add_zero, ← hlast, List.take_zero, List.append_nil, seg, Nat.sub_sub_self (by omega)]
    · rw [(Source.slide_stays hm hw).1]
      generalize hd : min s.extLen (s.stop + s.extLen - WINDOW_SIZE) = delta
      refine ⟨h.size, h.capacity, hdata, Nat.le_refl _, hstop, Nat.le_add_right _ _, ?_, fun he => ?_,
        ?_, ?_, fun _ => ?_, fun hi => absurd (hm.symm.trans hi) (by decide)⟩
      · dsimp only [Frame.push_info]
        omega
      · have := h.apart (by dsimp only at he; omega)
        dsimp only [Frame.push_info] at he ⊢
        omega
      · dsimp only
        omega
      · have hdrop := congrArg (List.drop delta) hheld
        rw [List.drop_append_of_le_length (by omega), Source.extDict, drop_seg, last,
          List.drop_drop] at hdrop
        dsimp only [Source.extDict]
        rw [hdrop, last]
        congr 1
        omega
      · dsimp only
        omega

end Sourced

end Lz4rip.Proof.Frame
