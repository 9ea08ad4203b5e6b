import Lz4rip.Proof.Frame.Session
import Lz4rip.Spec.Hash

/-!
# The encoder's state whenever it writes a block

`Enters` are the states in which a call enters `write_block`, and `Copies` those in
which it copies bytes into the source buffer. In every run of calls `Invariant`
holds where a block is entered, after the table's positions are counted anew, and
after the block (`Entered`), and the bytes that are copied fit
(`encoderRun_invariant`).
-/

namespace Lz4rip.Proof.Frame

open Lz4rip.Impl
open Lz4rip.Impl.FrameEncoder
open Spec (Created EncoderCall Frame Progress blockLimit encoderRun)

variable {X : XxHash32} {t : Target} {f : Frame} {e e' : FrameEncoder X} {buf rest : List UInt8}

/-! ## Where blocks are written -/

/-- The loop of `write` starts an iteration at `e'`, with `rest` of `buf` to go. -/
def Iterates (t : Target) (e : FrameEncoder X) (buf rest : List UInt8) (e' : FrameEncoder X) : Prop :=
  e.failed = false ∧ ∃ e₁,
    (if e.isFrameOpen = false ∧ buf ≠ [] then beginFrame t buf.length else pure () : Encode X Unit)
      { e with failed := true } = .ret (.ok (), e₁) ∧ Proc.Visits (writeStep t) buf e₁ rest e'

/-- The call enters `write_block` at `e'`; the bytes `rest` of the call are not in the
source yet. -/
inductive Enters (t : Target) (e : FrameEncoder X) :
    EncoderCall → List UInt8 → FrameEncoder X → Prop where
  | write {buf rest : List UInt8} {n : Nat} {e' : FrameEncoder X} (h : Iterates t e buf rest e')
    (hrest : rest ≠ []) (hn : e'.frameInfo.blockSize.getSize = .ret n)
    (hfull : n - (e'.srcEnd - e'.srcStart) = 0) : Enters t e (.write buf) rest e'
  | flush (hf : e.failed = false) (hne : e.srcStart ≠ e.srcEnd) :
    Enters t e .flush [] { e with failed := true }
  | tryFinish (hf : e.failed = false) (hne : e.srcStart ≠ e.srcEnd) :
    Enters t e .tryFinish [] { e with failed := true }

/-- The call copies `bytes` to the end of the source of `e'`. -/
inductive Copies (t : Target) (e : FrameEncoder X) :
    EncoderCall → List UInt8 → FrameEncoder X → Prop where
  | write {buf rest : List UInt8} {n : Nat} {e' : FrameEncoder X} (h : Iterates t e buf rest e')
    (hrest : rest ≠ []) (hn : e'.frameInfo.blockSize.getSize = .ret n)
    (hroom : n - (e'.srcEnd - e'.srcStart) ≠ 0) :
    Copies t e (.write buf) (rest.take (min (n - (e'.srcEnd - e'.srcStart)) rest.length)) e'

/-! ## What holds there -/

/-- The history that the source holds: the external dictionary, and the live part up
to the block. -/
def heldHistory (e : FrameEncoder X) : List UInt8 :=
  seg e.src.data e.extDictOffset e.extDictLen ++ e.src.data.take e.srcStart

/-- What waits for its block. -/
def pendingSrc (e : FrameEncoder X) : List UInt8 := seg e.src.data e.srcStart (e.srcEnd - e.srcStart)

/-- The open frame has the content `content` so far. -/
structure Invariant (content : List UInt8) (e : FrameEncoder X) : Prop where
  len : e.contentLen = content.length
  fits : e.srcStart ≤ e.srcEnd ∧ e.srcEnd ≤ e.src.data.length ∧ e.src.data.length ≤ e.src.capacity
  apart : e.extDictLen ≠ 0 →
    e.srcEnd ≤ e.extDictOffset ∧ e.extDictOffset + e.extDictLen ≤ e.src.data.length
  history : e.frameInfo.blockMode = .linked → heldHistory e <:+ content ∧
    min WINDOW_SIZE content.length ≤ (heldHistory e).length
  positions : e.srcStreamOffset + e.srcEnd < 2 ^ 32
  table : ∀ i, (h : i < DEFAULT_NODICT_ENTRIES) → e.compressionTable.dict[i].toNat = 0 ∨
    e.compressionTable.dict[i].toNat < e.srcStreamOffset + e.srcStart

/-- What `write_block` asserts before the block is compressed. -/
structure Asserts (e : FrameEncoder X) : Prop where
  isOpen : e.isFrameOpen = true
  fits : e.srcEnd - e.srcStart ≤ blockLimit e.frameInfo.blockSize
  withDict : e.dict ≠ [] ∧ (e.frameInfo.blockMode = .independent ∨ e.contentLen = 0) →
    e.extDictLen = 0
  withExtDict : e.extDictLen ≠ 0 → e.frameInfo.blockMode = .linked

/-- `write_block` is entered at `e`. It returns, unless the length of the content is
no `u64`. -/
structure Entered (t : Target) (content : List UInt8) (e : FrameEncoder X) : Prop where
  before : Invariant content e
  asserts : Asserts e
  repositioned : ∀ e', repositionTable t (blockLimit e.frameInfo.blockSize) e = .ret (.ok (), e') →
    Invariant content e'
  written : Proc.Safe (2 ^ 64 ≤ (content ++ pendingSrc e).length)
    (fun _ e' => Invariant (content ++ pendingSrc e) e') (fun _ _ => True)
    (FrameEncoder.writeBlock t e)

theorem Begun.invariant (h : Begun f e) : Invariant f.content e := by
  have hs := h.source
  have hcap : e.src.capacity = srcSize f.info.blockMode (blockLimit f.info.blockSize) := hs.capacity
  have hsize := srcSize_le f.info.blockMode f.info.blockSize
  have hstart : e.srcStart ≤ e.srcEnd := hs.start_le
  have hstop : e.srcEnd ≤ e.src.data.length := hs.stop_le
  have hdata : e.src.data.length ≤ e.src.capacity := hs.length_le
  have hfilled : e.srcEnd ≤ e.srcStart + blockLimit f.info.blockSize := hs.filled
  have hoffset := h.positions.lt
  refine ⟨h.len, ⟨hstart, hstop, hdata⟩, fun he => ?_, fun hm => ?_, by omega, fun i hi => ?_⟩
  · have happart := hs.apart he
    dsimp only [sourceOf] at happart
    omega
  · rw [h.info] at hm
    have hheld : heldHistory e = last f.content (e.extDictLen + e.srcStart) := hs.held
    have hle : e.extDictLen + e.srcStart ≤ f.content.length := hs.le
    rw [hheld]
    refine ⟨List.drop_suffix _ _, ?_⟩
    rw [length_last hle]
    exact hs.enough hm
  · exact (h.positions.table i hi).elim .inr fun hz => .inl hz.2

theorem Begun.asserts (h : Begun f e) : Asserts e where
  isOpen := h.isOpen
  fits := by
    have hfilled : e.srcEnd ≤ e.srcStart + blockLimit f.info.blockSize := h.source.filled
    rw [h.info]
    omega
  withDict hc := (h.history_eq e.dict hc.2).2
  withExtDict he := by
    rw [h.info]
    cases hm : f.info.blockMode with
    | independent => exact absurd (h.source.none hm).1 he
    | linked => rfl

theorem Begun.reposition (h : Begun f e)
    (hr : repositionTable t (blockLimit f.info.blockSize) e = .ret (.ok (), e')) : Begun f e' := by
  have hp := repositionTable_ok t h.positions (blockLimit_le f.info.blockSize) h.extDictLen_le
  rw [hr] at hp
  obtain ⟨T, n, rfl, hp, -⟩ := hp
  exact ⟨h.source, hp, h.info, h.isOpen, h.len, h.hash⟩

theorem Begun.entered (t : Target) (h : Begun f e) : Entered t f.content e where
  before := h.invariant
  asserts := h.asserts
  repositioned e' hr := by
    rw [h.info] at hr
    exact (h.reposition hr).invariant
  written := by
    refine (writeBlock_ok t h).mono (fun hover => ?_) (fun _ e' hw => ?_) fun _ _ _ => trivial
    · rw [List.length_append]
      exact hover
    · have hb := hw.begun.invariant
      rw [Frame.push_content] at hb
      exact hb

/-! ## Runs -/

section

variable {info : FrameInfo} {dict : List UInt8} {p : Progress} {w : Writer}

/-- Where the loop of `write` still has bytes to write, a frame is open. -/
theorem Session.iterates (h : Session info dict p w e) (hi : Iterates t e buf rest e')
    (hrest : rest ≠ []) : Writing info dict p.first p.ended w (p.opened ++ buf) rest e' := by
  obtain ⟨-, e₁, hbegin, hv⟩ := hi
  have hI : rest = [] ∨ Writing info dict p.first p.ended w (p.opened ++ buf) rest e' := by
    refine hv.invariant (I := fun rest e => rest = [] ∨
      Writing info dict p.first p.ended w (p.opened ++ buf) rest e) ?_ ?_
    · intro b s b' s' hI hs
      rcases hI with rfl | hI
      · cases hs
      · exact .inr ((writeStep_ok t hI).of_ret hs).1
    · rcases h.state with ⟨hnil, hr⟩ | ⟨-, f, hl, hopened⟩
      · by_cases hbuf : buf = []
        · exact .inl hbuf
        · rw [if_pos ⟨hr.rests.closed, hbuf⟩] at hbegin
          have hb := (hr.failed true).beginFrame_ok t rfl buf.length
          rw [hbegin] at hb
          obtain ⟨hfailed, f, hl, hopened⟩ := hb
          exact .inr ⟨hfailed, f, hl, by rw [hopened, hnil]⟩
      · have hopen : ¬ (e.isFrameOpen = false ∧ buf ≠ []) := fun hc => by
          rw [hl.begun.isOpen] at hc
          exact absurd hc.1 (by decide)
        rw [if_neg hopen] at hbegin
        obtain ⟨-, rfl⟩ := Prod.mk.inj (Run.ret.inj hbegin)
        exact .inr ⟨rfl, f, hl.failed true, by rw [← hopened]; rfl⟩
  exact hI.resolve_left hrest

theorem Session.enters (h : Session info dict p w e) {c : EncoderCall} (he : Enters t e c rest e') :
    ∃ content, content ++ pendingSrc e' ++ rest = p.opened ++ c.bytes ∧ Entered t content e' := by
  have hwaits (hne : e.srcStart ≠ e.srcEnd) : ∃ content,
      content ++ pendingSrc e ++ [] = p.opened ++ [] ∧ Entered t content { e with failed := true } := by
    rcases h.state with ⟨-, hr⟩ | ⟨-, f, hl, hopened⟩
    · exact absurd hr.rests.idle hne
    · refine ⟨f.content, ?_, (hl.failed true).begun.entered t⟩
      rw [← hopened, opened]
      rfl
  cases he with
  | write hi hrest _ _ =>
    obtain ⟨-, f, hl, htotal⟩ := h.iterates hi hrest
    exact ⟨f.content, htotal, hl.begun.entered t⟩
  | flush _ hne => exact hwaits hne
  | tryFinish _ hne => exact hwaits hne

theorem Session.copies (h : Session info dict p w e) {c : EncoderCall} {bytes : List UInt8}
    (hc : Copies t e c bytes e') : ∃ src, vecCopyOverwriting e'.src e'.srcEnd bytes = .ret src := by
  cases hc with
  | @write buf rest n _ hi hrest hn hroom =>
    obtain ⟨-, f, hl, -⟩ := h.iterates hi hrest
    have hs := hl.begun.source
    rw [hl.begun.info, getSize_eq hs.size] at hn
    obtain rfl := Run.ret.inj hn
    have hcap : e'.srcStart + blockLimit f.info.blockSize ≤ e'.src.capacity := hs.room
    have hstart : e'.srcStart ≤ e'.srcEnd := hs.start_le
    refine ⟨_, vecCopyOverwriting_eq hs.stop_le hs.length_le ?_⟩
    rw [List.length_take]
    omega

/-- A run that leaves an encoder that has not failed. -/
theorem run_session {e₀ : FrameEncoder X} (h : Created X w e₀) {cs : List EncoderCall}
    {rs : List (Except Error Nat)} (hr : encoderRun t e₀ cs = .ret (rs, e)) (hf : e.failed = false) :
    Session e₀.frameInfo e₀.dict (Progress.after cs) w e := by
  rcases encoderRun_ok t cs (created_session h) with ⟨hpanic, -⟩ | hran
  · cases hr.symm.trans hpanic
  · rw [hr] at hran
    cases (hran : Ran _ _ _ _ _ _) with
    | ok hs => exact hs
    | failed hfailed _ => exact absurd (hf.symm.trans hfailed) Bool.false_ne_true

end

/-- After any calls, wherever the next call writes a block the source and the table are
as `Invariant` says, and no assertion fails. -/
theorem encoderRun_invariant (t : Target) {w : Writer} {e₀ e : FrameEncoder X} (h : Created X w e₀)
    {cs : List EncoderCall} {rs : List (Except Error Nat)}
    (hr : encoderRun t e₀ cs = .ret (rs, e)) (c : EncoderCall) :
    (∀ rest e', Enters t e c rest e' → ∃ content,
      content ++ pendingSrc e' ++ rest = (Progress.after cs).opened ++ c.bytes ∧
        Entered t content e') ∧
    ∀ bytes e', Copies t e c bytes e' →
      ∃ src, vecCopyOverwriting e'.src e'.srcEnd bytes = .ret src := by
  constructor
  · intro rest e' he
    refine (run_session h hr ?_).enters he
    cases he with
    | write hi _ _ _ => exact hi.1
    | flush hf _ => exact hf
    | tryFinish hf _ => exact hf
  · intro bytes e' hc
    refine (run_session h hr ?_).copies hc
    cases hc with
    | write hi _ _ _ => exact hi.1

/-- A write of three bytes, and a flush. -/
theorem encoderRun_invariant_flush :
    let t : Target := ⟨.w64, false, false⟩
    ∃ e₀ e : FrameEncoder Spec.xxHash32, Created Spec.xxHash32 ⟨[], [], []⟩ e₀ ∧
      encoderRun t e₀ [.write [1, 2, 3]] = .ret ([.ok 3], e) ∧
      Enters t e .flush [] { e with failed := true } ∧
      ∃ content, content ++ pendingSrc { e with failed := true } ++ [] = [1, 2, 3] ∧
        Entered t content { e with failed := true } := by
  intro t
  obtain ⟨e₀, hnew⟩ : ∃ e₀, FrameEncoder.new Spec.xxHash32 ⟨[], [], []⟩ = .ret e₀ := ⟨_, rfl⟩
  have hrun : (encoderRun t e₀ [.write [1, 2, 3]] >>= fun p =>
      .ret (p.1, p.2.failed, p.2.srcStart, p.2.srcEnd)) = .ret ([.ok 3], false, 0, 3) := by
    obtain rfl := Run.ret.inj hnew
    decide +kernel
  obtain ⟨⟨rs, e⟩, he, hobs⟩ := Run.bind_eq_ret.mp hrun
  obtain ⟨rfl, hf, hstart, hend⟩ : rs = [.ok 3] ∧ e.failed = false ∧ e.srcStart = 0 ∧ e.srcEnd = 3 := by
    have h := Run.ret.inj hobs
    simp only [Prod.mk.injEq] at h
    exact h
  have hflush : Enters t e .flush [] { e with failed := true } :=
    .flush hf (by rw [hstart, hend]; decide)
  exact ⟨e₀, e, .new hnew, he, hflush, (encoderRun_invariant t (.new hnew) he .flush).1 _ _ hflush⟩

end Lz4rip.Proof.Frame
