import Lz4rip.Spec.Frame
import Lz4rip.Proof.Decode.Decompress

/-!
# The decoder's window

`between f` and `window f` are the numbers that the decoder works with after the
blocks of `f`, before and after it makes room for the next block: how much of
the history lies in front of the block in `dst`, and how much of it before that
in the external dictionary. They depend on the sizes of the blocks only.

`Windowed` says that the buffer holds this much of the content, and
`decode_window` that a block decodes after it to what it decodes to after all of
the content.
-/

namespace Lz4rip.Proof.Frame

open Lz4rip.Impl
open Spec (Frame blockLimit)

/-- How much of the history is in `dst` and in the external dictionary. -/
structure Window where
  start : Nat
  ext : Nat
  deriving DecidableEq, Repr

namespace Window

/-- Room for the next block. -/
def slide (info : FrameInfo) (w : Window) : Window :=
  match info.blockMode with
  | .independent => ⟨0, 0⟩
  | .linked =>
    if w.start + blockLimit info.blockSize > blockLimit info.blockSize * 2 + WINDOW_SIZE then
      ⟨0, WINDOW_SIZE⟩
    else if w.start + w.ext > WINDOW_SIZE then
      ⟨w.start, w.ext - min w.ext (w.start + w.ext - WINDOW_SIZE)⟩
    else w

/-- After a block of `n` bytes. -/
def push (w : Window) (n : Nat) : Window := ⟨w.start + n, w.ext⟩

/-- The window has all of `n` bytes, or enough of them. -/
structure Reaches (w : Window) (n : Nat) : Prop where
  le : w.start + w.ext ≤ n
  enough : w.start = n ∨ WINDOW_SIZE ≤ w.start + w.ext

theorem Reaches.push {w : Window} {n : Nat} (h : w.Reaches n) (k : Nat) :
    (w.push k).Reaches (n + k) := by
  obtain ⟨h₁, h₂⟩ := h
  constructor <;> dsimp only [Window.push] <;> omega

theorem Reaches.slide {w : Window} {n : Nat} {info : FrameInfo} (h : w.Reaches n)
    (hl : info.blockMode = .linked) : (w.slide info).Reaches n := by
  obtain ⟨h₁, h₂⟩ := h
  unfold Window.slide
  simp only [hl]
  split
  · constructor <;> dsimp only <;> omega
  · split
    · constructor <;> dsimp only <;> omega
    · exact ⟨h₁, h₂⟩

end Window

/-- After the last block of a frame. -/
def between (f : Frame) : Window :=
  f.blocks.foldl (fun w b => (w.slide f.info).push b.length) ⟨0, 0⟩

/-- Before the next block of a frame. -/
def window (f : Frame) : Window := (between f).slide f.info

theorem between_push (f : Frame) (b : List UInt8) :
    between (f.push b) = (window f).push b.length := by
  simp only [between, window, Frame.push, List.foldl_append, List.foldl_cons, List.foldl_nil]

theorem reaches_foldl {info : FrameInfo} (hl : info.blockMode = .linked) :
    ∀ (bs : List (List UInt8)) (w : Window) (n : Nat), w.Reaches n →
      (bs.foldl (fun w b => (w.slide info).push b.length) w).Reaches (n + bs.flatten.length)
  | [], _, _, h => h
  | b :: bs, w, n, h => by
    have := reaches_foldl hl bs _ _ ((h.slide hl).push b.length)
    rwa [Nat.add_assoc, ← List.length_append] at this

theorem between_reaches {f : Frame} (hl : f.info.blockMode = .linked) :
    (between f).Reaches f.content.length := by
  have := reaches_foldl hl f.blocks ⟨0, 0⟩ 0 ⟨Nat.le_refl _, .inl rfl⟩
  rwa [Nat.zero_add] at this

theorem window_reaches {f : Frame} (hl : f.info.blockMode = .linked) :
    (window f).Reaches f.content.length := (between_reaches hl).slide hl

theorem window_independent {f : Frame} (hi : f.info.blockMode = .independent) :
    window f = ⟨0, 0⟩ := by
  unfold window Window.slide
  simp only [hi]

theorem window_le (f : Frame) : (window f).start + (window f).ext ≤ f.content.length := by
  cases hm : f.info.blockMode with
  | independent => rw [window_independent hm]; exact Nat.zero_le _
  | linked => exact (window_reaches hm).le

/-- A block starts where it fits the buffer. -/
theorem window_start_le (f : Frame) :
    (window f).start ≤ blockLimit f.info.blockSize + WINDOW_SIZE := by
  unfold window Window.slide
  cases f.info.blockMode with
  | independent => exact Nat.zero_le _
  | linked =>
    dsimp only
    split
    · exact Nat.zero_le _
    · split
      · show (between f).start ≤ _
        omega
      · omega

/-! ## The history of a block -/

/-- The history before the one in `dst`. -/
def extHistory (dict : List UInt8) (f : Frame) : List UInt8 :=
  if (window f).ext ≠ 0 then
    seg f.content (f.content.length - ((window f).start + (window f).ext)) (window f).ext
  else dict

/-- The last `n` bytes. -/
def last (l : List UInt8) (n : Nat) : List UInt8 := l.drop (l.length - n)

theorem length_last {l : List UInt8} {n : Nat} (h : n ≤ l.length) : (last l n).length = n := by
  rw [last, List.length_drop]
  omega

theorem seg_append_last {l : List UInt8} {m n : Nat} (h : n + m ≤ l.length) :
    seg l (l.length - (n + m)) m ++ last l n = last l (n + m) := by
  rw [last, show l.length - n = l.length - (n + m) + m by omega, ← List.drop_drop, seg,
    List.take_append_drop, last]

theorem decode_last {a b l : List UInt8} {n : Nat} (hn : n ≤ l.length) (h : WINDOW_SIZE ≤ n)
    (bs : List UInt8) (ha : a = b ++ l) :
    Spec.decode (last l n) bs = Spec.decode a bs := by
  have hl : 65535 ≤ (last l n).length := by
    rw [length_last hn]
    simp only [WINDOW_SIZE] at h
    omega
  have he : a = b ++ l.take (l.length - n) ++ last l n := by
    rw [ha, List.append_assoc, last, List.take_append_drop]
  rw [he]
  exact (Spec.decode_append_history _ bs hl).symm

/-- The window is as good as the whole history. -/
theorem decode_window (dict : List UInt8) (f : Frame) (bs : List UInt8) :
    Spec.decode (extHistory dict f ++ last f.content (window f).start) bs =
      Spec.decode (f.history dict) bs := by
  unfold Frame.history
  cases hm : f.info.blockMode with
  | independent =>
    simp only [extHistory, window_independent hm, ne_eq, not_true_eq_false, if_false, last,
      Nat.sub_zero, List.drop_length, List.append_nil]
  | linked =>
    have hr := window_reaches hm
    dsimp only
    unfold extHistory
    by_cases he : (window f).ext ≠ 0
    · rw [if_pos he, seg_append_last hr.le]
      exact decode_last hr.le (by have := hr.le; have := hr.enough; omega) bs rfl
    · rw [if_neg he]
      have he' : (window f).ext = 0 := Nat.eq_zero_of_not_pos fun h => he (Nat.ne_of_gt h)
      have hle := hr.le
      rcases hr.enough with h | h
      · rw [last, h, Nat.sub_self, List.drop_zero]
      · have hlast : 65535 ≤ (last f.content (window f).start).length := by
          rw [length_last (by omega)]
          simp only [WINDOW_SIZE] at h
          omega
        rw [Spec.decode_append_history _ bs hlast]
        exact decode_last (by omega) (by omega) bs rfl

/-- The error that a block of the frame is refused with. -/
def blockError (t : Target) (dict : List UInt8) (f : Frame) (data : List UInt8) : DecompressError :=
  Decode.refusal t (extHistory dict f) data
    ((window f).start + blockLimit f.info.blockSize) (last f.content (window f).start)

/-! ## The buffer -/

/-- `l'` is `l` but for the `n` bytes from `i` on, and may be longer. -/
structure Within (l l' : List UInt8) (i n : Nat) : Prop where
  length : l.length ≤ l'.length
  same : ∀ j, j < l.length → j < i ∨ i + n ≤ j → l'[j]? = l[j]?

namespace Within

variable {l l' l'' : List UInt8} {i n : Nat}

theorem trans (h : Within l l' i n) (h' : Within l' l'' i n) : Within l l'' i n :=
  ⟨Nat.le_trans h.length h'.length, fun j hj ho =>
    (h'.same j (Nat.lt_of_lt_of_le hj h.length) ho).trans (h.same j hj ho)⟩

theorem mono {m : Nat} (h : Within l l' i n) (hm : n ≤ m) : Within l l' i m :=
  ⟨h.length, fun j hj ho => h.same j hj (by omega)⟩

theorem growTo (l : List UInt8) (len i n : Nat) : Within l (growTo l len) i n := by
  refine ⟨by rw [Impl.growTo, List.length_append]; omega, fun j hj _ => ?_⟩
  rw [Impl.growTo, List.getElem?_append_left hj]

theorem store {d : List UInt8} (h : i + d.length ≤ l.length) : Within l (store l i d) i d.length :=
  ⟨Nat.le_of_eq (length_store h).symm, fun j _ ho => by
    rcases ho with ho | ho
    · exact getElem?_store_lt d (by omega) ho
    · exact getElem?_store_ge (by omega) ho⟩

theorem take_eq (h : Within l l' i n) (hi : i ≤ l.length) : l'.take i = l.take i :=
  take_congr fun j hj => h.same j (by omega) (.inl hj)

theorem seg_eq (h : Within l l' i n) {j m : Nat} (hj : i + n ≤ j) (hm : j + m ≤ l.length) :
    seg l' j m = seg l j m := by
  refine List.ext_getElem? fun k => ?_
  rw [getElem?_seg, getElem?_seg]
  split
  · exact h.same _ (by omega) (.inr (by omega))
  · rfl

end Within

@[simp] theorem length_growTo (l : List UInt8) (n : Nat) :
    (growTo l n).length = max l.length n := by
  rw [growTo, List.length_append, List.length_replicate]
  omega

end Lz4rip.Proof.Frame
