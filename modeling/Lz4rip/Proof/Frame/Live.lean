import Lz4rip.Proof.Frame.Encoder
import Lz4rip.Proof.Frame.Header

/-!
# An open frame of the encoder

An encoder that has no frame open can begin one (`Rests`, `beginFrame_ok`). The open
frame is written, up to its last block, as the format says (`Live`), and every
iteration of the loop of `write` keeps this (`writeStep_ok`).
-/

namespace Lz4rip.Proof.Frame

open Lz4rip.Impl
open Lz4rip.Impl.FrameEncoder
open Spec (EmitsFrame Frame blockLimit headerBytes)
open Proof.Encode (Before)

variable {X : XxHash32} {t : Target} {f : Frame} {e : FrameEncoder X}

/-! ## Beginning a frame -/

/-- The frame has no content yet, and what can have an effect on its blocks is as
in a new encoder. -/
structure Pristine (e : FrameEncoder X) : Prop where
  data : e.src.data = []
  start : e.srcStart = 0
  stop : e.srcEnd = 0
  extLen : e.extDictLen = 0
  offset : e.srcStreamOffset = 0
  table : e.compressionTable = .zero 32 DEFAULT_NODICT_ENTRIES
  len : e.contentLen = 0
  hasher : e.contentHasher = X.withSeed 0

/-- The source buffer is not there yet, or it has the size for `info`. -/
def Sized (info : FrameInfo) (v : Vec) : Prop :=
  v = .new ∨ info.blockSize ≠ .auto ∧ v.data.length ≤ v.capacity ∧
    v.capacity = srcSize info.blockMode (blockLimit info.blockSize)

/-- No frame is open. -/
structure Rests (e : FrameEncoder X) : Prop where
  closed : e.isFrameOpen = false
  idle : e.srcStart = e.srcEnd
  sized : Sized e.frameInfo e.src
  pristine : e.contentLen = 0 → Pristine e

/-- The block size of a frame that begins with a write of `bufLen` bytes. -/
def resolve (info : FrameInfo) (bufLen : Nat) : FrameInfo :=
  if info.blockSize = .auto then { info with blockSize := .fromBufLength bufLen } else info

theorem resolve_blockSize (info : FrameInfo) (bufLen : Nat) :
    (resolve info bufLen).blockSize ≠ .auto := by
  unfold resolve
  split
  · dsimp only
    unfold BlockSize.fromBufLength
    split
    · decide
    · split <;> decide
  · assumption

theorem resolve_eq (info : FrameInfo) (bufLen : Nat) :
    resolve info bufLen = { info with blockSize := (resolve info bufLen).blockSize } := by
  unfold resolve
  split <;> rfl

theorem blockLimit_ge {b : BlockSize} (h : b ≠ .auto) : 65536 ≤ blockLimit b := by
  cases b with
  | auto => exact absurd rfl h
  | _ => decide

theorem Sized.resolve {info : FrameInfo} {v : Vec} (h : Sized info v) (bufLen : Nat) :
    Sized (resolve info bufLen) v := by
  refine h.imp id fun h => ?_
  rwa [Frame.resolve, if_neg h.1]

/-- The source buffer after `init`. -/
theorem Sized.reserve {info : FrameInfo} {v : Vec} (h : Sized info v) (hne : info.blockSize ≠ .auto) :
    (v.reserve (srcSize info.blockMode (blockLimit info.blockSize) - v.capacity)).data = v.data ∧
    (v.reserve (srcSize info.blockMode (blockLimit info.blockSize) - v.capacity)).capacity =
      srcSize info.blockMode (blockLimit info.blockSize) := by
  have hge := blockLimit_ge hne
  generalize hn : srcSize info.blockMode (blockLimit info.blockSize) = n at h ⊢
  have hsize : 65536 ≤ n := by
    rw [← hn]
    unfold srcSize
    split <;> omega
  rcases h with rfl | ⟨-, hle, hcap⟩
  · unfold Vec.reserve
    rw [if_neg (by simp only [Vec.new, List.length_nil]; omega)]
    simp only [Vec.new, List.length_nil, true_and]
    omega
  · unfold Vec.reserve
    rw [if_pos (by omega)]
    exact ⟨rfl, hcap.trans hn⟩

/-- A frame is begun, and its header written. -/
structure Begins (info : FrameInfo) (e e' : FrameEncoder X) : Prop where
  begun : Begun ⟨info, []⟩ e'
  pristine : Pristine e'
  keeps : Keeps e e'
  sent : Sent e.w (headerBytes X info) e'.w

theorem Pristine.begun {info : FrameInfo} (h : Pristine e) (hi : e.frameInfo = info)
    (hne : info.blockSize ≠ .auto)
    (hcap : e.src.capacity = srcSize info.blockMode (blockLimit info.blockSize))
    (ho : e.isFrameOpen = true) : Begun ⟨info, []⟩ e where
  source := by
    have hs : Sourced ⟨info, []⟩ ⟨e.src.data, e.src.capacity, 0, 0, e.extDictOffset, 0⟩ :=
      .start hne hcap (by rw [h.data]; exact Nat.zero_le _)
    simpa only [sourceOf, h.start, h.stop, h.extLen] using hs
  positions := by
    refine ⟨by rw [h.extLen]; exact Nat.zero_le _, by rw [h.offset]; decide, fun i hi => ?_⟩
    rw [h.offset, h.start, h.table]
    exact .inr ⟨rfl, by simp [HashTable.zero]⟩
  info := hi
  isOpen := ho
  len := h.len
  hash _ := h.hasher

theorem beginFrame_ok (t : Target) (h : Rests e) (bufLen : Nat) :
    Proc.WP (fun _ e' => Begins (resolve e.frameInfo bufLen) e e') (fun _ e' => Faulty e e')
      (beginFrame t bufLen e) := by
  have hne := resolve_blockSize e.frameInfo bufLen
  have hsized := h.sized.resolve bufLen
  have hresolve : (if e.frameInfo.blockSize = .auto then
      { e with frameInfo := { e.frameInfo with blockSize := .fromBufLength bufLen } } else e) =
      { e with frameInfo := resolve e.frameInfo bufLen } := by
    unfold resolve
    split <;> rfl
  generalize resolve e.frameInfo bufLen = info at hne hsized hresolve ⊢
  obtain ⟨hdata, hcap⟩ := hsized.reserve hne
  have hmax := getMaximumOutputSize_eq t (blockLimit_le info.blockSize)
  have hroom : info.writeSize ≤ (List.replicate MAX_FRAME_INFO_SIZE (0 : UInt8)).length := by
    rw [List.length_replicate]
    exact (writeSize_range info).2
  have hwrite := write_ok (X := X) hne hroom
  simp only [beginFrame, init, Proc.bind_run, Proc.modify_run, Run.ret_bind, Proc.andThen_ok, hresolve,
    Proc.get_run, Proc.lift_run, getSize_eq hne, hmax, hwrite, Proc.ofExcept_run]
  generalize e.src.reserve _ = src at hdata hcap ⊢
  generalize e.dst.reserve _ = dst
  have hlen := length_headerBytes X info
  have htake (rest : List UInt8) : seg (headerBytes X info ++ rest) 0 info.writeSize =
      headerBytes X info := by
    rw [seg, List.drop_zero, ← hlen, List.take_left]
  rw [Run.chunk_eq (by rw [List.length_append]; omega), htake, Run.ret_bind, Run.ret_bind,
    Proc.andThen_ok]
  refine Proc.WP.bind (writeAll_ok { e with src, dst, frameInfo := info } _) fun _ e₁ he₁ => ?_
  obtain ⟨w, hsent, rfl⟩ := he₁
  rw [Proc.bind_run, Proc.get_run, Run.ret_bind, Proc.andThen_ok, Proc.ite_run]
  by_cases hlen : e.contentLen ≠ 0
  · rw [if_pos hlen, Proc.bind_run, Proc.modify_run, Run.ret_bind, Proc.andThen_ok, Proc.modify_run]
    have hp : Pristine { e with
        src := src.clear, dst, frameInfo := info, w, contentLen := 0, srcStreamOffset := 0
        srcStart := 0, srcEnd := 0, extDictLen := 0, contentHasher := X.withSeed 0
        compressionTable := e.compressionTable.clear, isFrameOpen := true } :=
      ⟨rfl, rfl, rfl, rfl, rfl, rfl, rfl, rfl⟩
    exact ⟨hp.begun rfl hne hcap rfl, hp, ⟨rfl, rfl, rfl⟩, hsent⟩
  · rw [if_neg hlen, Proc.modify_run]
    obtain ⟨hd, hstart, hstop, hext, ho, ht, hl, hh⟩ := h.pristine (not_not.mp hlen)
    have hp : Pristine { e with src, dst, frameInfo := info, w, isFrameOpen := true } :=
      ⟨hdata.trans hd, hstart, hstop, hext, ho, ht, hl, hh⟩
    exact ⟨hp.begun rfl hne hcap rfl, hp, ⟨rfl, rfl, rfl⟩, hsent⟩

/-! ## Writing to a frame -/

/-- Bytes that there is room for are copied over what is there, and behind it. -/
theorem vecCopyOverwriting_eq {v : Vec} {start : Nat} {bytes : List UInt8}
    (hs : start ≤ v.data.length) (hle : v.data.length ≤ v.capacity)
    (hb : start + bytes.length ≤ v.capacity) :
    vecCopyOverwriting v start bytes = .ret { v with data := store v.data start bytes } := by
  have happend := store_take_append (d := bytes) hs
  have hover : (store v.data start bytes).length ≤ v.capacity := by
    rw [length_store_max hs]
    omega
  rw [vecCopyOverwriting, Run.assert, if_pos hb, Run.ret_bind, Run.sub, if_pos hs, Run.ret_bind]
  dsimp only
  generalize hm : min (v.data.length - start) bytes.length = m at happend ⊢
  have htake : (bytes.take m).length ≤ m := List.length_take_le ..
  have hstore : Run.storeAt v.data start (bytes.take m) = .ret (store v.data start (bytes.take m)) :=
    if_pos (by omega)
  rw [hstore, Run.ret_bind, Run.pure_eq]
  simp only [Vec.extend, Vec.reserve, ← List.length_append]
  rw [if_pos (by rw [happend]; exact hover)]
  dsimp only
  rw [happend]

/-- The encoder after `bytes` are added to what waits. -/
def filled (e : FrameEncoder X) (bytes : List UInt8) : FrameEncoder X :=
  { e with
    src := { e.src with data := store e.src.data e.srcEnd bytes }
    srcEnd := e.srcEnd + bytes.length }

theorem Begun.fill (h : Begun f e) {bytes : List UInt8}
    (hb : e.srcEnd + bytes.length ≤ e.srcStart + blockLimit f.info.blockSize) :
    Begun f (filled e bytes) ∧
      (sourceOf (filled e bytes)).pending = (sourceOf e).pending ++ bytes := by
  obtain ⟨hs, hp⟩ := h.source.fill hb
  exact ⟨⟨hs, h.positions, h.info, h.isOpen, h.len, h.hash⟩, hp⟩

/-- How many bytes there is room for in the block. -/
def room (f : Frame) (e : FrameEncoder X) : Nat :=
  blockLimit f.info.blockSize - (e.srcEnd - e.srcStart)

theorem room_fits (h : Begun f e) (rest : List UInt8) :
    e.srcEnd + (rest.take (room f e)).length ≤ e.srcStart + blockLimit f.info.blockSize := by
  have hstart : e.srcStart ≤ e.srcEnd := h.source.start_le
  have hfilled : e.srcEnd ≤ e.srcStart + blockLimit f.info.blockSize := h.source.filled
  rw [List.length_take]
  unfold room
  omega

section

variable {rest : List UInt8} (t : Target) (h : Begun f e) (hrest : rest ≠ [])

include h hrest

theorem writeStep_eq : writeStep t rest e =
    if room f e = 0 then
      (do
        FrameEncoder.writeBlock t
        let e ← Proc.get
        Proc.lift (Run.assert (e.srcEnd = e.srcStart))
        return .next rest : Encode X (Run.Flow (List UInt8) Unit)) e
    else .ret (.ok (.next (rest.drop (room f e))), filled e (rest.take (room f e))) := by
  have hstart : e.srcStart ≤ e.srcEnd := h.source.start_le
  have hfilled : e.srcEnd ≤ e.srcStart + blockLimit f.info.blockSize := h.source.filled
  have hmax : e.srcEnd - e.srcStart ≤ blockLimit f.info.blockSize := by omega
  have hfits := room_fits h rest
  have hcap : e.srcStart + blockLimit f.info.blockSize ≤ e.src.capacity := h.source.room
  have hcopy : vecCopyOverwriting e.src e.srcEnd (rest.take (room f e)) =
      .ret (filled e (rest.take (room f e))).src :=
    vecCopyOverwriting_eq h.source.stop_le h.source.length_le (by omega)
  have hstate : { e with
      src := (filled e (rest.take (room f e))).src, srcEnd := e.srcEnd + min (room f e) rest.length } =
      filled e (rest.take (room f e)) := by
    rw [filled, List.length_take]
  unfold writeStep
  rw [if_neg hrest, Proc.bind_run, Proc.get_run, Run.ret_bind, Proc.andThen_ok, Proc.bind_run,
    Proc.lift_run, Run.sub, if_pos hstart, Run.ret_bind, Run.ret_bind, Proc.andThen_ok,
    Proc.bind_run, Proc.lift_run, h.info, getSize_eq h.source.size, Run.ret_bind, Run.ret_bind,
    Proc.andThen_ok, Proc.bind_run, Proc.lift_run, Run.sub, if_pos hmax, Run.ret_bind, Run.ret_bind,
    Proc.andThen_ok, Proc.ite_run]
  rw [show blockLimit f.info.blockSize - (e.srcEnd - e.srcStart) = room f e from rfl,
    ← List.take_eq_take_min, ← List.drop_eq_drop_min]
  congr 1
  rw [Proc.bind_run, Proc.lift_run, hcopy, Run.ret_bind, Run.ret_bind, Proc.andThen_ok, Proc.bind_run,
    Proc.modify_run, Run.ret_bind, Proc.andThen_ok, hstate, Proc.pure_run]

/-- The block is full, and is written. -/
theorem writeStep_full (hroom : room f e = 0) : writeStep t rest e =
    (do
      FrameEncoder.writeBlock t
      let e ← Proc.get
      Proc.lift (Run.assert (e.srcEnd = e.srcStart))
      return .next rest : Encode X (Run.Flow (List UInt8) Unit)) e := by
  rw [writeStep_eq t h hrest, if_pos hroom]

/-- As many bytes are added as there is room for. -/
theorem writeStep_fill (hroom : room f e ≠ 0) : writeStep t rest e =
    .ret (.ok (.next (rest.drop (room f e))), filled e (rest.take (room f e))) := by
  rw [writeStep_eq t h hrest, if_neg hroom]

end

/-- What is written to the open frame: its blocks, and what waits. -/
def opened (f : Frame) (e : FrameEncoder X) : List UInt8 := f.content ++ (sourceOf e).pending

/-- An open frame, written up to its last block behind what the writer `w` had: frames
with the contents `ended`, and the blocks of `f`. -/
structure Live (info : FrameInfo) (dict : List UInt8) (first : Bool) (ended : List (List UInt8))
    (w : Writer) (f : Frame) (e : FrameEncoder X) : Prop where
  begun : Begun f e
  info_eq : f.info = { info with blockSize := f.info.blockSize }
  dict_eq : e.dict = dict
  first_eq : e.dataToFrameWritten = !first
  pristine : opened f e = [] → Pristine e
  sent : ∃ bytes more, Spec.Stream X dict info.dictId ended.flatten bytes ∧ EmitsFrame X dict f more ∧
    Sent w (bytes ++ more) e.w

section

variable {info : FrameInfo} {dict : List UInt8} {first : Bool} {ended : List (List UInt8)} {w : Writer}

theorem Live.block (h : Live info dict first ended w f e) (hne : e.srcStart ≠ e.srcEnd)
    {e' : FrameEncoder X} (hw : Written f e e') :
    Live info dict first ended w (f.push (sourceOf e).pending) e' ∧
      opened (f.push (sourceOf e).pending) e' = opened f e := by
  obtain ⟨bytes, more, hstream, hframe, hsent⟩ := h.sent
  obtain ⟨block, hblock, hsent'⟩ := hw.emitted
  have hpl : (sourceOf e).pending.length = e.srcEnd - e.srcStart := h.begun.source.length_pending
  have hstart : e.srcStart ≤ e.srcEnd := h.begun.source.start_le
  have hfilled : e.srcEnd ≤ e.srcStart + blockLimit f.info.blockSize := h.begun.source.filled
  have hb : (sourceOf e).pending ≠ [] := fun hnil => by
    rw [hnil, List.length_nil] at hpl
    omega
  rw [h.dict_eq] at hblock
  refine ⟨⟨hw.begun, h.info_eq, hw.keeps.dict.trans h.dict_eq, hw.keeps.written.trans h.first_eq,
    fun hnil => ?_, bytes, more ++ block, hstream, hframe.block hb (by omega) hblock, ?_⟩, ?_⟩
  · rw [opened, Frame.push_content, List.append_assoc] at hnil
    exact absurd (List.append_eq_nil_iff.mp (List.append_eq_nil_iff.mp hnil).2).1 hb
  · rw [← List.append_assoc]
    exact hsent.trans hsent'
  · have hnone : (sourceOf e').pending = [] := by
      have := hw.begun.source.length_pending
      exact List.eq_nil_of_length_eq_zero (by rw [this]; exact Nat.sub_eq_zero_of_le (Nat.le_of_eq hw.start_eq.symm))
    rw [opened, opened, hnone, List.append_nil, Frame.push_content]

/-- What one of the calls leaves when it fails with the writer. -/
def Failed (w : Writer) (_ : Error) (e : FrameEncoder X) : Prop := e.failed = true ∧ ¬ Reliable w

theorem Live.faulty (h : Live info dict first ended w f e) (hf : e.failed = true)
    {e' : FrameEncoder X} (he : Faulty e e') (err : Error) : Failed w err e' := by
  obtain ⟨bytes, more, -, -, hsent⟩ := h.sent
  exact ⟨he.1.trans hf, fun hr => he.2 (hsent.reliable hr)⟩

/-- The state of the loop of `write` with `rest` still to write, of `total` in the
frame. -/
def Writing (info : FrameInfo) (dict : List UInt8) (first : Bool) (ended : List (List UInt8))
    (w : Writer) (total rest : List UInt8) (e : FrameEncoder X) : Prop :=
  e.failed = true ∧ ∃ f, Live info dict first ended w f e ∧ opened f e ++ rest = total

/-- The iterations that are left of the loop of `write`. -/
def writeLeft (rest : List UInt8) (e : FrameEncoder X) : Nat :=
  2 * rest.length + if e.srcStart = e.srcEnd then 0 else 1

theorem writeStep_ok (t : Target) {total rest : List UInt8}
    (h : Writing info dict first ended w total rest e) :
    Proc.Safe (2 ^ 64 ≤ total.length)
      (Proc.FlowAll (fun rest' e' => Writing info dict first ended w total rest' e' ∧
        writeLeft rest' e' < writeLeft rest e)
        (fun _ e' => Writing info dict first ended w total [] e')) (Failed w) (writeStep t rest e) := by
  obtain ⟨hfailed, f, hl, htotal⟩ := h
  have hb := hl.begun
  have hfilled : e.srcEnd ≤ e.srcStart + blockLimit f.info.blockSize := hb.source.filled
  have hlimit := blockLimit_pos hb.source.size
  by_cases hrest : rest = []
  · subst hrest
    exact .inl ⟨hfailed, f, hl, htotal⟩
  have hpos : rest.length ≠ 0 := fun h => hrest (List.eq_nil_of_length_eq_zero h)
  by_cases hroom : room f e = 0
  · have hne : e.srcStart ≠ e.srcEnd := by
      unfold room at hroom
      omega
    have hopened : f.content.length + (sourceOf e).pending.length ≤ total.length := by
      rw [← htotal, opened, List.length_append, List.length_append]
      omega
    have hwrite := (writeBlock_ok t hb).mono (fun hover => Nat.le_trans hover hopened)
      (fun _ _ hq => hq) fun err _ he => hl.faulty hfailed he err
    rw [writeStep_full t hb hrest hroom]
    refine Proc.Safe.bind hwrite fun _ e₁ hw => ?_
    obtain ⟨hl₁, hopened₁⟩ := hl.block hne hw
    rw [Proc.bind_run, Proc.get_run, Run.ret_bind, Proc.andThen_ok, Proc.bind_run, Proc.lift_run,
      Run.assert, if_pos hw.start_eq.symm, Run.ret_bind, Run.ret_bind, Proc.andThen_ok, Proc.pure_run]
    refine .inl ⟨⟨hw.keeps.failed.trans hfailed, _, hl₁, by rw [hopened₁]; exact htotal⟩, ?_⟩
    rw [writeLeft, writeLeft, if_pos hw.start_eq, if_neg hne]
    omega
  · have hlen : (rest.take (room f e)).length = min (room f e) rest.length := List.length_take
    obtain ⟨hb₁, hp₁⟩ := hb.fill (room_fits hb rest)
    rw [writeStep_fill t hb hrest hroom]
    refine .inl ⟨⟨hfailed, f, ⟨hb₁, hl.info_eq, hl.dict_eq, hl.first_eq, fun hnil => ?_, hl.sent⟩, ?_⟩,
      ?_⟩
    · rw [opened, hp₁] at hnil
      have := congrArg List.length (List.append_eq_nil_iff.mp (List.append_eq_nil_iff.mp hnil).2).2
      rw [hlen, List.length_nil] at this
      omega
    · rw [opened, hp₁, List.append_assoc, List.append_assoc, List.take_append_drop,
        ← List.append_assoc]
      exact htotal
    · have hdrop : (rest.drop (room f e)).length = rest.length - room f e := List.length_drop
      rw [writeLeft, writeLeft, hdrop]
      split <;> split <;> omega

end

end Lz4rip.Proof.Frame
