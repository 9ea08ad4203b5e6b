import Lz4rip.Proof.Frame.Emit
import Lz4rip.Proof.Frame.Header

/-!
# One block of the frame encoder

`Begun f e`: the encoder `e` has the frame `f` open. Its source holds the end of
the frame's content (`Sourced`), and no position of the table lies in what waits
for its block (`Positioned`). `writeBlock_ok`: a block is written, of all that
waits, and nothing of this changes.
-/

namespace Lz4rip.Proof.Frame

open Lz4rip.Impl
open Lz4rip.Impl.FrameEncoder
open Spec (Frame blockLimit IsBlockOf)
open Proof.Encode (Before Below Compressed Permitted ValidEntries before_iff below_zero
  compressInternal_ok defaultNodict_valid one_max_mono seedTableWithInput_ok)

variable {X : XxHash32} {t : Target} {f : Frame} {e : FrameEncoder X}

/-- The source of an encoder. -/
def sourceOf (e : FrameEncoder X) : Source :=
  ⟨e.src.data, e.src.capacity, e.srcStart, e.srcEnd, e.extDictOffset, e.extDictLen⟩

/-- The entries of the table are before `start`, whose position in the stream is
`offset + start`. -/
structure Positioned (extLen offset start : Nat) (T : HashTableU32 DEFAULT_NODICT_ENTRIES) :
    Prop where
  ext_le : extLen ≤ offset
  lt : offset < 2 ^ 31 + 4194304
  table : Before T (offset + start)

/-- The encoder has the frame `f` open. -/
structure Begun (f : Frame) (e : FrameEncoder X) : Prop where
  source : Sourced f (sourceOf e)
  positions : Positioned e.extDictLen e.srcStreamOffset e.srcStart e.compressionTable
  info : e.frameInfo = f.info
  isOpen : e.isFrameOpen = true
  len : e.contentLen = f.content.length
  hash : f.info.contentChecksum = true → e.contentHasher = f.hash X

/-! ## The positions -/

theorem before_reposition {T : HashTableU32 DEFAULT_NODICT_ENTRIES} {p k : Nat} (h : Before T p)
    (hk : k ≤ p) : Before (T.reposition k) (p - k) := fun i hi => by
  have hlt := h i hi
  have h32 := T.dict[i].isLt
  simp only [HashTable.reposition, Vector.getElem_map, BitVec.toNat_ofNat]
  omega

theorem before_mono {T : HashTableU32 DEFAULT_NODICT_ENTRIES} {p q : Nat} (h : Before T p)
    (hpq : p ≤ q) : Before T q :=
  before_iff.mpr ((before_iff.mp h).mono (one_max_mono hpq))

theorem shouldReposition_eq (t : Target) {offset max : Nat} (ho : offset < 2 ^ 31 + 4194304)
    (hm : max ≤ 4194304) : ∃ b, shouldReposition t offset max = .ret b ∧
      (b = true ↔ offset + max + WINDOW_SIZE ≥ REPOSITION_THRESHOLD) := by
  unfold shouldReposition
  cases hw : t.width with
  | w32 =>
    refine ⟨_, rfl, ?_⟩
    rw [decide_eq_true_iff]
    simp only [WINDOW_SIZE, REPOSITION_THRESHOLD]
    omega
  | w64 =>
    have h : t.modulus = 2 ^ 64 := by rw [Target.modulus, hw]
    have hadd : ∀ {a b : Nat}, a + b < 2 ^ 64 → t.add a b = .ret (a + b) := fun hlt => by
      rw [Target.add, h, if_pos hlt]
    rw [hadd (by omega), Run.ret_bind, hadd (by simp only [WINDOW_SIZE]; omega), Run.ret_bind]
    exact ⟨_, rfl, decide_eq_true_iff⟩

/-- The positions are far enough from the limit for a block. -/
theorem repositionTable_ok (t : Target) {max : Nat}
    (h : Positioned e.extDictLen e.srcStreamOffset e.srcStart e.compressionTable)
    (hm : max ≤ 4194304) (hext : e.extDictLen ≤ WINDOW_SIZE) :
    Proc.WP (fun _ e' => ∃ T n, e' = { e with compressionTable := T, srcStreamOffset := n } ∧
      Positioned e.extDictLen n e.srcStart T ∧ n + max + WINDOW_SIZE < REPOSITION_THRESHOLD)
      (fun _ _ => False) (repositionTable t max e) := by
  have hle := h.ext_le
  have hlt := h.lt
  obtain ⟨b, hb, hiff⟩ := shouldReposition_eq t hlt hm
  simp only [repositionTable, Proc.bind_run, Proc.get_run, Run.ret_bind, Proc.andThen_ok,
    Proc.lift_run, hb, Proc.ite_run]
  cases b with
  | true =>
    rw [if_pos rfl, Run.sub, if_pos hle, Run.ret_bind, Run.ret_bind, Proc.andThen_ok, Proc.modify_run]
    have hcut : (e.srcStreamOffset - e.extDictLen) % 2 ^ 32 = e.srcStreamOffset - e.extDictLen :=
      Nat.mod_eq_of_lt (by omega)
    have hbefore := before_reposition h.table (k := e.srcStreamOffset - e.extDictLen) (by omega)
    rw [show e.srcStreamOffset + e.srcStart - (e.srcStreamOffset - e.extDictLen) =
      e.extDictLen + e.srcStart by omega] at hbefore
    simp only [WINDOW_SIZE] at hext
    refine ⟨_, _, rfl, ⟨Nat.le_refl _, by omega, by rw [hcut]; exact hbefore⟩, ?_⟩
    simp only [WINDOW_SIZE, REPOSITION_THRESHOLD]
    omega
  | false =>
    rw [if_neg Bool.false_ne_true]
    refine ⟨e.compressionTable, e.srcStreamOffset, rfl, h, Nat.lt_of_not_le fun hge => ?_⟩
    exact absurd (hiff.mpr hge) Bool.false_ne_true

/-! ## Compressing -/

theorem Begun.extDictLen_le (h : Begun f e) : e.extDictLen ≤ WINDOW_SIZE := by
  by_cases hz : e.extDictLen = 0
  · omega
  · have : e.srcStart + e.extDictLen = WINDOW_SIZE := (h.source.apart hz).2.2
    omega

theorem Begun.history_suffix (h : Begun f e) (dict : List UInt8) :
    (sourceOf e).extDict ++ e.src.data.take e.srcStart <:+ f.history dict := by
  have hheld := h.source.held
  have hsuf : last f.content ((sourceOf e).extLen + (sourceOf e).start) <:+ f.content :=
    List.drop_suffix _ _
  dsimp only [sourceOf] at hheld
  unfold Frame.history
  cases hm : f.info.blockMode with
  | independent =>
    obtain ⟨h₁, h₂⟩ := h.source.none hm
    dsimp only [sourceOf] at h₁ h₂
    simp [Source.extDict, sourceOf, h₁, h₂]
  | linked => exact hheld ▸ hsuf.trans (List.suffix_append _ _)

theorem srcSize_le (mode : BlockMode) (b : BlockSize) : srcSize mode (blockLimit b) ≤ 8454144 := by
  have := blockLimit_le b
  unfold srcSize
  simp only [WINDOW_SIZE]
  split <;> omega

/-- With the encoder's table, behind the history that the source holds. -/
theorem compressIntoSinkWithTable_packed (t : Target) (useDict : Bool) {dst : List UInt8}
    (h : Begun f e) (hn : e.srcStreamOffset + blockLimit f.info.blockSize + WINDOW_SIZE <
      REPOSITION_THRESHOLD) (hu : useDict = true ↔ e.extDictLen ≠ 0)
    (hd : dst.length = 16 + 4 + (sourceOf e).pending.length * 110 / 100) :
    ∃ n sink T, compressIntoSinkWithTable t useDict true false (e.src.data.take e.srcEnd) e.srcStart
        ⟨dst, 0⟩ e.compressionTable (sourceOf e).extDict e.srcStreamOffset =
          .ret (.ok n, sink, T) ∧
      Packed (f.history e.dict) (sourceOf e).pending sink.output n ∧
      Before T (e.srcStreamOffset + e.srcEnd) := by
  have hmod := t.modulus_cases
  have hlimit := blockLimit_le f.info.blockSize
  have hsize := srcSize_le f.info.blockMode f.info.blockSize
  have hpl := h.source.length_pending
  have hel := h.source.length_extDict
  have hstart := h.source.start_le
  have hstop := h.source.stop_le
  have hfilled := h.source.filled
  have hdata := h.source.length_le
  have hcap := h.source.capacity
  have hapart := h.source.apart
  have hle := h.positions.ext_le
  dsimp only [sourceOf] at hpl hel hstart hstop hfilled hdata hcap hapart
  simp only [WINDOW_SIZE, REPOSITION_THRESHOLD] at hn hapart
  have hlen : (e.src.data.take e.srcEnd).length = e.srcEnd := by
    rw [List.length_take]
    exact Nat.min_eq_left hstop
  have hspan : useDict = true → (sourceOf e).extDict.length ≤ WINDOW_SIZE ∧
      (sourceOf e).extDict.length ≤ e.srcStreamOffset ∧
      e.srcStreamOffset + (e.src.data.take e.srcEnd).length + (sourceOf e).extDict.length ≤
        t.isizeMax := fun hud => by
    have := hapart (hu.mp hud)
    simp only [sourceOf, hel, hlen, WINDOW_SIZE, Target.isizeMax]
    omega
  have hno : useDict = false → (sourceOf e).extDict = [] := fun hud => by
    have hzero : ¬ e.extDictLen ≠ 0 := fun hne => by
      rw [hu.mpr hne] at hud
      cases hud
    rw [not_not] at hzero
    exact List.eq_nil_of_length_eq_zero (hel.trans hzero)
  have hfalse : ∀ {P : Prop}, (false : Bool) = true → P := fun h => absurd h Bool.false_ne_true
  have hp : Permitted t ⟨useDict, true, false, false⟩ (e.src.data.take e.srcEnd) (sourceOf e).extDict
      e.srcStart e.srcStreamOffset :=
    ⟨by omega, hspan, hno, .inl rfl, hfalse, hfalse, hfalse⟩
  have hmax := getMaximumOutputSize_eq t (n := (e.src.data.take e.srcEnd).length - e.srcStart)
    (by omega)
  have hsink : (SliceSink.mk dst 0).output.length ≤ t.isizeMax := by
    unfold Target.isizeMax
    dsimp only [sourceOf] at hd ⊢
    omega
  obtain ⟨⟨r, sink, T⟩, hrun, hres⟩ := Run.WP_iff.mp (compressInternal_ok (defaultNodict_valid t)
    (by unfold Target.isizeMax; omega) hsink (Nat.zero_le _) (by omega) hmax hp fun _ =>
      before_iff.mp h.positions.table)
  obtain ⟨-, hsmall, -⟩ | ⟨⟨blk, hc⟩, hb⟩ := hres
  · dsimp only [sourceOf] at hd hsmall
    omega
  · have hr := hc.result
    subst hr
    have hpack := Packed.of_compressed hc
    rw [List.take_take, Nat.min_eq_left hstart, List.drop_take] at hpack
    have hbefore := before_iff.mpr (hb rfl)
    rw [hlen] at hbefore
    exact ⟨_, sink, T, hrun, hpack.of_suffix (h.history_suffix e.dict), hbefore⟩

/-- A block that is compressed with the dictionary alone has no other history. -/
theorem Begun.history_eq (h : Begun f e) (dict : List UInt8)
    (hc : e.frameInfo.blockMode = .independent ∨ e.contentLen = 0) :
    f.history dict = dict ∧ e.extDictLen = 0 := by
  have hle := h.source.le
  dsimp only [sourceOf] at hle
  rw [h.info, h.len] at hc
  unfold Frame.history
  cases hm : f.info.blockMode with
  | independent => exact ⟨rfl, (h.source.none hm).1⟩
  | linked =>
    have hzero := hc.resolve_left (by rw [hm]; decide)
    dsimp only
    rw [List.eq_nil_of_length_eq_zero hzero, List.append_nil]
    exact ⟨rfl, by omega⟩

/-- What compressing a block comes to. -/
def Compresses (f : Frame) (e : FrameEncoder X) (res : Except CompressError Nat)
    (e' : FrameEncoder X) : Prop :=
  ∃ n dst T, res = .ok n ∧ e' = { e with dst, compressionTable := T } ∧
    Packed (f.history e.dict) (sourceOf e).pending dst.data n ∧ Before T (e.srcStreamOffset + e.srcEnd)

theorem compressSrc_ok (t : Target) (h : Begun f e)
    (hn : e.srcStreamOffset + blockLimit f.info.blockSize + WINDOW_SIZE < REPOSITION_THRESHOLD) :
    Proc.WP (fun res e' => Compresses f e res e') (fun _ _ => False)
      (compressSrc t (e.src.data.take e.srcEnd) (sourceOf e).pending e) := by
  have hlimit := blockLimit_le f.info.blockSize
  have hpl : (sourceOf e).pending.length = e.srcEnd - e.srcStart := h.source.length_pending
  have hel : (sourceOf e).extDict.length = e.extDictLen := h.source.length_extDict
  have hstart : e.srcStart ≤ e.srcEnd := h.source.start_le
  have hfilled : e.srcEnd ≤ e.srcStart + blockLimit f.info.blockSize := h.source.filled
  have hmax := getMaximumOutputSize_eq t (n := (sourceOf e).pending.length) (by omega)
  simp only [compressSrc, Proc.bind_run, Proc.get_run, Run.ret_bind, Proc.andThen_ok,
    Proc.lift_run, hmax, Proc.ite_run, vecSinkForCompression_eq]
  generalize hv : e.dst.resize (16 + 4 + (sourceOf e).pending.length * 110 / 100) = v
  have hvl : v.data.length = 16 + 4 + (sourceOf e).pending.length * 110 / 100 := by
    rw [← hv]
    exact length_resize _ _
  by_cases hdict : e.dict ≠ [] ∧ (e.frameInfo.blockMode = .independent ∨ e.contentLen = 0)
  · obtain ⟨hhist, hzero⟩ := h.history_eq e.dict hdict.2
    obtain ⟨n, sink, hrun, hpack⟩ := compressIntoSinkWithDict_packed t e.dict
      (show (sourceOf e).pending.length ≤ 4194304 by omega) hvl
    simp only [if_pos hdict, Run.assert, if_pos hzero, Run.ret_bind, Proc.andThen_ok, hrun,
      Proc.bind_run, Proc.lift_run, Proc.modify_run, Proc.pure_run]
    exact ⟨n, _, _, rfl, rfl, by rw [hhist]; exact hpack, before_mono h.positions.table (by omega)⟩
  · rw [if_neg hdict]
    by_cases hext : e.extDictLen ≠ 0
    · have hlinked : e.frameInfo.blockMode = .linked := by
        rw [h.info]
        cases hm : f.info.blockMode with
        | independent => exact absurd (h.source.none hm).1 hext
        | linked => rfl
      obtain ⟨n, sink, T, hrun, hpack, hb⟩ := compressIntoSinkWithTable_packed t true h
        hn (by simp [hext]) hvl
      have hchunk : Run.chunk e.src.data e.extDictOffset e.extDictLen = .ret (sourceOf e).extDict :=
        Run.chunk_eq (h.source.apart hext).2.1
      simp only [if_pos hext, Run.assert, if_pos hlinked, Run.ret_bind, Proc.andThen_ok, hchunk, hrun,
        Proc.bind_run, Proc.lift_run, Proc.modify_run, Proc.pure_run]
      exact ⟨n, _, T, rfl, rfl, hpack, hb⟩
    · obtain ⟨n, sink, T, hrun, hpack, hb⟩ := compressIntoSinkWithTable_packed t false h
        hn (by simp [not_not.mp hext]) hvl
      rw [List.eq_nil_of_length_eq_zero (hel.trans (not_not.mp hext))] at hrun
      simp only [if_neg hext, Run.ret_bind, Proc.andThen_ok, hrun, Proc.bind_run, Proc.modify_run,
        Proc.pure_run]
      exact ⟨n, _, T, rfl, rfl, hpack, hb⟩

/-! ## Writing -/

/-- A block is written compressed or stored. -/
theorem blockData_ok {dict b dst : List UInt8} {n : Nat} (hp : Packed (f.history dict) b dst n)
    (hb : b.length ≤ 4194304) : ∃ info size data, blockData (.ok n) dst b = .ret (.ok (info, data)) ∧
      info.write = .ok (leOfU32 size) ∧
      Spec.EmitsBlock X dict f b (Spec.blockBytes X f.info size data) := by
  unfold blockData
  by_cases hlt : n < b.length
  · have hlen : (dst.take n).length = n := by
      rw [List.length_take]
      exact Nat.min_eq_left hp.le
    have hpos : n ≠ 0 := fun h => hp.block.ne_nil (by rw [h, List.take_zero])
    have hne : UInt32.ofNat n ≠ 0 := fun h => hpos (by
      have := congrArg UInt32.toNat h
      rwa [UInt32.toNat_ofNat', Nat.mod_eq_of_lt (by omega)] at this)
    have hseg : seg dst 0 n = dst.take n := rfl
    have he : Spec.EmitsBlock X dict f b (Spec.blockBytes X f.info (.ofNat (dst.take n).length)
      (dst.take n)) := .compressed hp.block (by omega)
    rw [hlen] at he
    refine ⟨.compressed (.ofNat n), .ofNat n, dst.take n, ?_, ?_, he⟩
    · dsimp only
      rw [if_pos hlt, Run.chunk_eq (by rw [Nat.zero_add]; exact hp.le), hseg]
      rfl
    · rw [BlockInfo.write, if_neg hne, if_neg (not_not.mpr (and_bit_eq_zero (by omega)))]
  · refine ⟨.uncompressed (.ofNat b.length), _, b, ?_, ?_, .stored⟩
    · dsimp only
      rw [if_neg hlt]
      rfl
    · rw [BlockInfo.write, if_neg (not_not.mpr (and_bit_eq_zero (by omega)))]

/-- The first block of a linked frame gets into the table. -/
theorem seedTable_ok {src : List UInt8} {p : Nat} (hT : Before e.compressionTable p)
    (hp : e.srcStreamOffset + src.length ≤ p) (hfits : p ≤ 2 ^ 32) :
    Proc.WP (fun _ e' => ∃ T, e' = { e with compressionTable := T } ∧ Before T p) (fun _ _ => False)
      (seedTable t src e) := by
  have hmod := t.modulus_cases
  have hmax : p ≤ Nat.max 1 p := Nat.le_max_right _ _
  simp only [seedTable, Proc.bind_run, Proc.get_run, Run.ret_bind, Proc.andThen_ok, Proc.ite_run]
  split
  · have hle : e.srcStreamOffset + src.length ≤ Nat.max 1 p := by omega
    obtain ⟨T, hrun, hb⟩ := Run.WP_iff.mp (seedTableWithInput_ok (defaultNodict_valid t) hle
      (by omega) (before_iff.mp hT))
    simp only [Proc.lift_run, hrun, Run.ret_bind, Proc.andThen_ok, Proc.modify_run]
    exact ⟨T, rfl, before_iff.mpr hb⟩
  · exact ⟨_, rfl, hT⟩

/-! ## Room for the next block -/

theorem addStreamOffset_eq (t : Target) {delta : Nat} (h : e.srcStreamOffset + delta < 2 ^ 32) :
    addStreamOffset t delta e =
      .ret (.ok (), { e with srcStreamOffset := e.srcStreamOffset + delta }) := by
  simp only [addStreamOffset, Proc.bind_run, Proc.get_run, Run.ret_bind, Proc.andThen_ok]
  cases hw : t.width with
  | w32 =>
    have hm : t.modulus = 2 ^ 32 := by rw [Target.modulus, hw]
    dsimp only
    rw [hm, if_pos h, Proc.modify_run]
  | w64 =>
    have hm : t.modulus = 2 ^ 64 := by rw [Target.modulus, hw]
    dsimp only
    rw [Proc.bind_run, Proc.lift_run, Target.add, hm, if_pos (by omega), Run.ret_bind, Run.ret_bind,
      Proc.andThen_ok, Proc.modify_run]

theorem Source.moved_le {s : Source} (h : Sourced f s) :
    s.moved f.info ≤ blockLimit f.info.blockSize * 2 + WINDOW_SIZE := by
  have hfilled := h.filled
  have hroom := h.room
  have hcap := h.capacity
  cases hm : f.info.blockMode with
  | independent =>
    rw [(slide_independent hm).2]
    omega
  | linked =>
    rw [srcSize, if_pos hm] at hcap
    by_cases hw : s.stop ≥ blockLimit f.info.blockSize + WINDOW_SIZE
    · rw [(slide_wraps hm hw).2]
      omega
    · rw [(slide_stays hm hw).2]
      omega

/-- The encoder's source after a block. -/
def slid (info : FrameInfo) (e : FrameEncoder X) : FrameEncoder X :=
  let s := (sourceOf e).slide info
  { e with
    srcStart := s.start, srcEnd := s.stop, extDictOffset := s.extOffset, extDictLen := s.extLen
    srcStreamOffset := e.srcStreamOffset + (sourceOf e).moved info }

theorem slideSource_eq (t : Target) (hs : Sourced f (sourceOf e)) (hi : e.frameInfo = f.info)
    (ho : e.srcStreamOffset + (sourceOf e).moved f.info < 2 ^ 32) :
    slideSource t (blockLimit f.info.blockSize) (e.srcEnd - e.srcStart)
      { e with srcStart := e.srcEnd } = .ret (.ok (), slid f.info e) := by
  have hstart : e.srcStart ≤ e.srcEnd := hs.start_le
  have hfilled : e.srcEnd ≤ e.srcStart + blockLimit f.info.blockSize := hs.filled
  have hcap : e.src.capacity = srcSize f.info.blockMode (blockLimit f.info.blockSize) := hs.capacity
  have hapart : e.extDictLen ≠ 0 → e.srcStart + blockLimit f.info.blockSize ≤ e.extDictOffset ∧
    e.extDictOffset + e.extDictLen ≤ e.src.data.length ∧ e.srcStart + e.extDictLen = WINDOW_SIZE :=
    hs.apart
  simp only [slideSource, Proc.bind_run, Proc.get_run, Run.ret_bind, Proc.andThen_ok, Proc.ite_run,
    slid]
  cases hm : f.info.blockMode with
  | independent =>
    have hnone : e.extDictLen = 0 := (hs.none hm).1
    obtain ⟨hslide, hmoved⟩ := Source.slide_independent (s := sourceOf e) hm
    rw [hm, srcSize, if_neg (by decide)] at hcap
    rw [hmoved] at ho ⊢
    rw [hslide, hi, if_neg (by rw [hm]; decide)]
    simp only [Proc.bind_run, Proc.lift_run, Run.assert, if_pos hnone, if_pos hcap, Run.ret_bind,
      Proc.andThen_ok, Proc.modify_run]
    rw [addStreamOffset_eq t (by exact ho)]
    rfl
  | linked =>
    rw [hm, srcSize, if_pos rfl] at hcap
    rw [hi, if_pos hm]
    simp only [Proc.bind_run, Proc.lift_run, Run.assert, if_pos hcap, Run.ret_bind, Proc.andThen_ok,
      Proc.ite_run]
    by_cases hw : e.srcEnd ≥ blockLimit f.info.blockSize + WINDOW_SIZE
    · have hle : WINDOW_SIZE ≤ e.srcEnd := by omega
      have hroom : 0 + blockLimit f.info.blockSize ≤ e.srcEnd - WINDOW_SIZE := by omega
      obtain ⟨hslide, hmoved⟩ := Source.slide_wraps (s := sourceOf e) hm hw
      rw [hmoved] at ho ⊢
      rw [hslide, if_pos hw, Run.sub, if_pos hle]
      simp only [Proc.bind_run, Proc.modify_run, Run.ret_bind, Proc.andThen_ok]
      rw [addStreamOffset_eq t (by exact ho), Run.ret_bind, Proc.andThen_ok]
      simp only [Proc.bind_run, Proc.get_run, Proc.modify_run, Run.ret_bind, Proc.andThen_ok,
        Proc.lift_run, if_pos (Or.inr hroom)]
      rfl
    · obtain ⟨hslide, hmoved⟩ := Source.slide_stays (s := sourceOf e) hm hw
      have hgap : e.extDictLen - min e.extDictLen (e.srcEnd + e.extDictLen - WINDOW_SIZE) = 0 ∨
          e.srcEnd + blockLimit f.info.blockSize ≤
            e.extDictOffset + min e.extDictLen (e.srcEnd + e.extDictLen - WINDOW_SIZE) := by
        by_cases hz : e.extDictLen = 0
        · omega
        · have := hapart hz
          omega
      rw [hslide, hmoved, if_neg hw]
      by_cases hext : e.srcEnd + e.extDictLen > WINDOW_SIZE
      · have hreach : e.srcEnd +
            (e.extDictLen - min e.extDictLen (e.srcEnd + e.extDictLen - WINDOW_SIZE)) ≥
              WINDOW_SIZE := by omega
        rw [if_pos hext]
        simp only [Proc.bind_run, Proc.lift_run, Proc.modify_run, Proc.get_run, Run.ret_bind,
          Proc.andThen_ok, if_pos hreach, if_pos hgap]
        rfl
      · have hzero : e.srcEnd + e.extDictLen - WINDOW_SIZE = 0 := by omega
        rw [hzero, Nat.min_zero, Nat.sub_zero, Nat.add_zero] at hgap
        rw [if_neg hext]
        simp only [Proc.get_run, Run.ret_bind, Proc.andThen_ok, Proc.lift_run, if_pos hgap, sourceOf,
          hzero, Nat.min_zero, Nat.sub_zero, Nat.add_zero]

theorem sourceOf_slid (info : FrameInfo) (e : FrameEncoder X) :
    sourceOf (slid info e) = (sourceOf e).slide info := by
  unfold slid
  cases hm : info.blockMode with
  | independent =>
    rw [(Source.slide_independent hm).1]
    rfl
  | linked =>
    by_cases hw : (sourceOf e).stop ≥ blockLimit info.blockSize + WINDOW_SIZE
    · rw [(Source.slide_wraps hm hw).1]
      rfl
    · rw [(Source.slide_stays hm hw).1]
      rfl

/-- The next block starts in the stream where this one ends. -/
theorem Source.moved_start {s : Source} (h : Sourced f s) :
    s.moved f.info + (s.slide f.info).start = s.stop := by
  cases hm : f.info.blockMode with
  | independent =>
    have hzero := (h.none hm).2
    rw [(slide_independent hm).1, (slide_independent hm).2]
    dsimp only
    omega
  | linked =>
    by_cases hw : s.stop ≥ blockLimit f.info.blockSize + WINDOW_SIZE
    · rw [(slide_wraps hm hw).1, (slide_wraps hm hw).2]
      rfl
    · rw [(slide_stays hm hw).1, (slide_stays hm hw).2]
      exact Nat.zero_add _

/-- The positions after a block. -/
theorem Positioned.slide {n : Nat} {T : HashTableU32 DEFAULT_NODICT_ENTRIES} {s : Source}
    (hs : Sourced f s) (hext : s.extLen ≤ n)
    (hn : n + blockLimit f.info.blockSize + WINDOW_SIZE < REPOSITION_THRESHOLD)
    (hT : Before T (n + s.stop)) :
    Positioned (s.slide f.info).extLen (n + s.moved f.info) (s.slide f.info).start T := by
  have hlimit := blockLimit_le f.info.blockSize
  have hmoved := Source.moved_le hs
  have hstart := Source.moved_start hs
  simp only [WINDOW_SIZE, REPOSITION_THRESHOLD] at hn hmoved
  refine ⟨?_, by omega, by rw [Nat.add_assoc, hstart]; exact hT⟩
  cases hm : f.info.blockMode with
  | independent =>
    rw [(Source.slide_independent hm).1]
    exact Nat.le_trans hext (Nat.le_add_right _ _)
  | linked =>
    by_cases hw : s.stop ≥ blockLimit f.info.blockSize + WINDOW_SIZE
    · rw [(Source.slide_wraps hm hw).1, (Source.slide_wraps hm hw).2]
      dsimp only
      omega
    · rw [(Source.slide_stays hm hw).1, (Source.slide_stays hm hw).2]
      dsimp only
      omega

/-! ## A block -/

/-- What writing a block leaves as it is. -/
structure Keeps (e e' : FrameEncoder X) : Prop where
  failed : e'.failed = e.failed
  dict : e'.dict = e.dict
  written : e'.dataToFrameWritten = e.dataToFrameWritten

theorem sourceBlock_eq (h : Sourced f (sourceOf e)) :
    sourceBlock e = .ret (e.src.data.take e.srcEnd, (sourceOf e).pending) := by
  have hstart : e.srcStart ≤ e.srcEnd := h.start_le
  have hstop : e.srcEnd ≤ e.src.data.length := h.stop_le
  have hlen : (e.src.data.take e.srcEnd).length = e.srcEnd := by
    rw [List.length_take]
    exact Nat.min_eq_left hstop
  have hseg : seg e.src.data 0 e.srcEnd = e.src.data.take e.srcEnd := rfl
  have hpend : seg (e.src.data.take e.srcEnd) e.srcStart (e.srcEnd - e.srcStart) =
      (sourceOf e).pending := seg_take _ (by omega)
  rw [sourceBlock, Run.chunk_eq (by omega), hseg, Run.ret_bind, hlen, Run.sub, if_pos hstart,
    Run.ret_bind, Run.chunk_eq (by omega), hpend]
  rfl

/-- The state update at the end of `write_block`. -/
theorem advance_eq (t : Target) (hs : Sourced f (sourceOf e)) (hi : e.frameInfo = f.info)
    (ho : e.srcStreamOffset + (sourceOf e).moved f.info < 2 ^ 32) {n : Nat}
    (hn : n = (sourceOf e).pending.length) :
    (do
      Proc.modify fun e => { e with contentLen := e.contentLen + n, srcStart := e.srcStart + n }
      let e ← Proc.get
      Proc.lift (Run.assert (e.srcStart = e.srcEnd))
      slideSource t (blockLimit f.info.blockSize) n
      let e ← Proc.get
      Proc.lift (Run.assert (e.srcStart ≤ e.srcEnd))
      Proc.lift (Run.assert (e.srcStart + blockLimit f.info.blockSize ≤ e.src.capacity)) :
        Encode X Unit) e =
      .ret (.ok (), slid f.info { e with contentLen := e.contentLen + n }) := by
  have hstart : e.srcStart ≤ e.srcEnd := hs.start_le
  have hpl : n = e.srcEnd - e.srcStart := hn.trans hs.length_pending
  have hend : e.srcStart + n = e.srcEnd := by omega
  have hslide := slideSource_eq t (e := { e with contentLen := e.contentLen + n }) hs hi ho
  dsimp only at hslide
  rw [← hpl] at hslide
  generalize he' : slid f.info { e with contentLen := e.contentLen + n } = e' at hslide ⊢
  have hafter : Sourced (f.push (sourceOf e).pending) (sourceOf e') := by
    rw [← he', sourceOf_slid]
    exact hs.slide
  have hle : e'.srcStart ≤ e'.srcEnd := hafter.start_le
  have hroom : e'.srcStart + blockLimit f.info.blockSize ≤ e'.src.capacity := hafter.room
  rw [Proc.bind_run, Proc.modify_run, Run.ret_bind, Proc.andThen_ok, hend, Proc.bind_run, Proc.get_run,
    Run.ret_bind, Proc.andThen_ok, Proc.bind_run, Proc.lift_run, Run.assert, if_pos rfl, Run.ret_bind,
    Run.ret_bind, Proc.andThen_ok, Proc.bind_run, hslide, Run.ret_bind, Proc.andThen_ok,
    Proc.bind_run, Proc.get_run, Run.ret_bind, Proc.andThen_ok, Proc.bind_run, Proc.lift_run,
    Run.assert, if_pos hle, Run.ret_bind, Run.ret_bind, Proc.andThen_ok, Proc.lift_run,
    Run.assert, if_pos hroom, Run.ret_bind]

/-- What a block that is written leaves. -/
structure Written (f : Frame) (e e' : FrameEncoder X) : Prop where
  begun : Begun (f.push (sourceOf e).pending) e'
  start_eq : e'.srcStart = e'.srcEnd
  keeps : Keeps e e'
  emitted : ∃ more, Spec.EmitsBlock X e.dict f (sourceOf e).pending more ∧ Sent e.w more e'.w

/-- All that waits is written as a block. The length of the content is a `u64`. -/
theorem writeBlock_ok (t : Target) (h : Begun f e) :
    Proc.Safe (2 ^ 64 ≤ f.content.length + (sourceOf e).pending.length)
      (fun _ e' => Written f e e') (fun _ e' => Faulty e e') (FrameEncoder.writeBlock t e) := by
  have hlimit := blockLimit_le f.info.blockSize
  have hpl : (sourceOf e).pending.length = e.srcEnd - e.srcStart := h.source.length_pending
  have hstart : e.srcStart ≤ e.srcEnd := h.source.start_le
  have hfilled : e.srcEnd ≤ e.srcStart + blockLimit f.info.blockSize := h.source.filled
  have hmax : e.srcEnd - e.srcStart ≤ blockLimit f.info.blockSize := by omega
  have hsize := getSize_eq h.source.size
  unfold FrameEncoder.writeBlock
  rw [Proc.bind_run, Proc.get_run, Run.ret_bind, Proc.andThen_ok, Proc.bind_run, Proc.lift_run,
    Run.assert, if_pos h.isOpen, Run.ret_bind, Run.ret_bind, Proc.andThen_ok, Proc.bind_run,
    Proc.lift_run, h.info, hsize, Run.ret_bind, Run.ret_bind, Proc.andThen_ok, Proc.bind_run,
    Proc.lift_run, Run.sub, if_pos hstart, Run.ret_bind, Run.assert, if_pos hmax, Run.ret_bind,
    Run.ret_bind, Proc.andThen_ok]
  refine Proc.Safe.bind (repositionTable_ok t h.positions hlimit h.extDictLen_le).never.safe fun _ e₁ he₁ => ?_
  obtain ⟨T₁, n, rfl, hp₁, hn⟩ := he₁
  have hb₁ : Begun f { e with compressionTable := T₁, srcStreamOffset := n } :=
    ⟨h.source, hp₁, h.info, h.isOpen, h.len, h.hash⟩
  rw [Proc.bind_run, Proc.lift_run, sourceBlock_eq h.source, Run.ret_bind, Run.ret_bind,
    Proc.andThen_ok]
  refine Proc.Safe.bind (compressSrc_ok t hb₁ hn).never.safe fun res e₂ he₂ => ?_
  obtain ⟨m, dst, T₂, rfl, rfl, hpack, hT₂⟩ := he₂
  have hpack : Packed (f.history e.dict) (sourceOf e).pending dst.data m := hpack
  have hT₂ : Before T₂ (n + e.srcEnd) := hT₂
  obtain ⟨info, size, data, hdata, hinfo, hemits⟩ :=
    blockData_ok (X := X) hpack (show (sourceOf e).pending.length ≤ 4194304 by omega)
  rw [Proc.bind_run, Proc.get_run, Run.ret_bind, Proc.andThen_ok, Proc.bind_run, Proc.lift_run, hdata,
    Run.ret_bind, Run.ret_bind, Proc.andThen_ok, Proc.bind_run, Proc.ofExcept_run, Run.ret_bind,
    Proc.andThen_ok]
  have hfits : n + e.srcEnd ≤ 2 ^ 32 := by
    simp only [WINDOW_SIZE, REPOSITION_THRESHOLD] at hn
    have := h.source.room
    have := h.source.capacity
    have := srcSize_le f.info.blockMode f.info.blockSize
    dsimp only [sourceOf] at *
    omega
  have hpending : n + (sourceOf e).pending.length ≤ n + e.srcEnd := by omega
  refine Proc.Safe.bind (seedTable_ok (t := t) (e := { e with
    compressionTable := T₂, srcStreamOffset := n, dst }) hT₂ hpending hfits).never.safe
    fun _ e₃ he₃ => ?_
  obtain ⟨T₃, rfl, hT₃⟩ := he₃
  refine Proc.Safe.bind (emitBlock_ok data hinfo).safe fun _ e₄ he₄ => ?_
  obtain ⟨w, hsent, rfl⟩ := he₄
  have hsent : Sent e.w (Spec.blockBytes X e.frameInfo size data) w := hsent
  rw [h.info] at hsent
  rw [Proc.bind_run, Proc.modify_run, Run.ret_bind, Proc.andThen_ok, Proc.bind_run, Proc.get_run,
    Run.ret_bind, Proc.andThen_ok]
  obtain ⟨hasher, heq, hhash⟩ : ∃ hasher, (if e.frameInfo.contentChecksum then
      { e with compressionTable := T₃, srcStreamOffset := n, dst, w,
               contentHasher := X.write e.contentHasher (sourceOf e).pending }
      else { e with compressionTable := T₃, srcStreamOffset := n, dst, w }) =
        { e with compressionTable := T₃, srcStreamOffset := n, dst, w, contentHasher := hasher } ∧
      (f.info.contentChecksum = true → hasher = (f.push (sourceOf e).pending).hash X) := by
    rw [h.info]
    by_cases hc : f.info.contentChecksum = true
    · exact ⟨_, if_pos hc, fun _ => by rw [h.hash hc, Frame.push_hash]⟩
    · exact ⟨_, if_neg hc, fun hc' => absurd hc' hc⟩
  rw [heq]
  have hmoved : n + (sourceOf e).moved f.info < 2 ^ 32 := by
    have := Source.moved_le h.source
    simp only [WINDOW_SIZE, REPOSITION_THRESHOLD] at hn this
    omega
  refine Proc.Safe.bind (Proc.Safe.assert
    (Q := fun _ e' => e' = { e with
      compressionTable := T₃, srcStreamOffset := n, dst, w, contentHasher := hasher })
    (fun _ => rfl) fun hlen => by
      rw [← h.len]
      exact Nat.le_of_not_lt hlen) fun _ e₅ he₅ => ?_
  subst he₅
  have hadvance := advance_eq t (f := f) (n := (sourceOf e).pending.length) (e := { e with
    compressionTable := T₃, srcStreamOffset := n, dst, w, contentHasher := hasher }) h.source h.info
    hmoved rfl
  rw [hadvance]
  have hafter : sourceOf (slid f.info { e with
      compressionTable := T₃, srcStreamOffset := n, dst, w, contentHasher := hasher
      contentLen := e.contentLen + (sourceOf e).pending.length }) = (sourceOf e).slide f.info :=
    sourceOf_slid _ _
  have hpos := Positioned.slide h.source hp₁.ext_le hn hT₃
  refine .inl ⟨⟨?_, ?_, h.info, h.isOpen, ?_, hhash⟩, ?_, ⟨rfl, rfl, rfl⟩, _, hemits, hsent⟩
  · rw [hafter]
    exact h.source.slide
  · exact hpos
  · rw [Frame.push_content, List.length_append, ← h.len]
    rfl
  · have hempty := Source.slide_empty f.info (sourceOf e)
    rw [← hafter] at hempty
    exact hempty

end Lz4rip.Proof.Frame
