import Lz4rip.Proof.Frame.Twin

/-!
# Calls on twins

Twins do the same in every call. What a block is compressed to does not depend on
what is in the output buffer (`compressSrc_tandem`), and the rest of `write_block`
does not look at what may differ (`finishBlock_tame`). So the calls of twins go in
step (`encoderCall_tandem`).
-/

namespace Lz4rip.Proof.Frame

open Lz4rip.Impl
open Lz4rip.Impl.FrameEncoder
open Proc (Moves Respects Tandem)
open Spec (EncoderCall Frame Progress blockLimit encoderCall encoderRun)
open Proof.Encode (compressInternal_same compressIntoSinkWithDict_same)

variable {X : XxHash32} {f : Frame} {e e' : FrameEncoder X} {w v : Writer} {P : Prop}

/-! ## Compressing -/

theorem compressSrc_moves (t : Target) (input src : List UInt8) :
    Moves Onward (compressSrc t input src : Encode X (Except CompressError Nat)) := by
  have hset {g : FrameEncoder X → FrameEncoder X} (hw : ∀ e, (g e).w = e.w)
      (hi : ∀ e, (g e).frameInfo = e.frameInfo) : Moves Onward (Proc.modify g : Encode X Unit) :=
    .modify fun e => ⟨by rw [hw], fun _ => hi e⟩
  unfold compressSrc
  refine .bind .get fun _ => .bind (.lift _) fun _ => .ite ?_ (.ite ?_ ?_)
  · exact .bind (.lift _) fun _ => .bind (.lift _) fun _ => .bind (.lift _) fun _ =>
      .bind (hset (fun _ => rfl) fun _ => rfl) fun _ => .pure _
  · exact .bind (.lift _) fun _ => .bind (.lift _) fun _ => .bind (.lift _) fun _ =>
      .bind (.lift _) fun _ => .bind (hset (fun _ => rfl) fun _ => rfl) fun _ => .pure _
  · exact .bind (.lift _) fun _ => .bind (.lift _) fun _ =>
      .bind (hset (fun _ => rfl) fun _ => rfl) fun _ => .pure _

/-- Both have compressed the block to the same `n` bytes. -/
structure SamePacked (w v : Writer) (P : Prop) (n : Nat) (e e' : FrameEncoder X) : Prop where
  twin : Twin w v P e e'
  le : n ≤ e.dst.data.length
  take_eq : e'.dst.data.take n = e.dst.data.take n

theorem compressSrc_tandem (t : Target) (h : Begun f e)
    (hn : e.srcStreamOffset + blockLimit f.info.blockSize + WINDOW_SIZE < REPOSITION_THRESHOLD)
    (ht : Twin w v P e e') :
    Tandem Onward (fun res e₁ res' e₁' => res = res' ∧ ∃ n, res = .ok n ∧ SamePacked w v P n e₁ e₁')
      (Twin w v P) (Behind w v)
      (compressSrc t (e.src.data.take e.srcEnd) (sourceOf e).pending e)
      (compressSrc t (e.src.data.take e.srcEnd) (sourceOf e).pending e') := by
  have hmod := t.modulus_cases
  have hlimit := blockLimit_le f.info.blockSize
  have hsize := srcSize_le f.info.blockMode f.info.blockSize
  have hpl : (sourceOf e).pending.length = e.srcEnd - e.srcStart := h.source.length_pending
  have hel : (sourceOf e).extDict.length = e.extDictLen := h.source.length_extDict
  have hcap : e.src.capacity = srcSize f.info.blockMode (blockLimit f.info.blockSize) := h.source.capacity
  have hdata : e.src.data.length ≤ e.src.capacity := h.source.length_le
  have hfilled : e.srcEnd ≤ e.srcStart + blockLimit f.info.blockSize := h.source.filled
  have hoffset := h.positions.lt
  have hfits : (sourceOf e).pending.length + WINDOW_SIZE ≤ t.modulus := by
    simp only [WINDOW_SIZE]
    omega
  have hspan : e.srcStreamOffset + (e.src.data.take e.srcEnd).length ≤ t.modulus := by
    rw [List.length_take]
    omega
  have hfalse : ∀ {p : Prop}, (false : Bool) = true → p := fun h => absurd h Bool.false_ne_true
  obtain ⟨⟨d, u, o, b, rfl⟩, ho, hb, hs⟩ := ht
  have hmax := getMaximumOutputSize_eq t (n := (sourceOf e).pending.length) (by omega)
  unfold compressSrc
  refine .get (.liftTo hmax hmax ?_)
  generalize hk : 16 + 4 + (sourceOf e).pending.length * 110 / 100 = k
  have hsink (v : Vec) : (v.resize k).data.length = k := length_resize v k
  have hroom : (e.dst.resize k).data.length ≤ (d.resize k).data.length := by rw [hsink, hsink]
  refine .ite (fun hdict => .lift fun _ _ => ?_) fun hdict => .ite (fun hext => .lift fun _ _ => ?_)
    fun hext => ?_
  · obtain ⟨n, sink, hrun, hpack⟩ := compressIntoSinkWithDict_packed t e.dict
      (show (sourceOf e).pending.length ≤ 4194304 by omega) ((hsink e.dst).trans hk.symm)
    obtain ⟨sink', hrun', htake⟩ := compressIntoSinkWithDict_same hfits hroom hrun
    refine .liftTo (vecSinkForCompression_eq _ _) (vecSinkForCompression_eq _ _)
      (.liftTo hrun hrun' (.modify ?_))
    exact .ok ⟨rfl, n, rfl, ⟨⟨_, _, _, _, rfl⟩, ho, hb, hs⟩, hpack.le, htake⟩
  · obtain ⟨n, sink, T, hrun, hpack, -⟩ := compressIntoSinkWithTable_packed t true h hn
      (by simp [hext]) ((hsink e.dst).trans hk.symm)
    obtain ⟨sink', hrun', htake⟩ := compressInternal_same hspan hfalse hroom hrun
    have hchunk : Run.chunk e.src.data e.extDictOffset e.extDictLen = .ret (sourceOf e).extDict :=
      Run.chunk_eq (h.source.apart hext).2.1
    have hchunk' : Run.chunk e.src.data o e.extDictLen = .ret (sourceOf e).extDict := by
      rw [← hchunk, show o = e.extDictOffset from ho hext]
    refine .liftTo (vecSinkForCompression_eq _ _) (vecSinkForCompression_eq _ _)
      (.liftTo hchunk hchunk' (.liftTo hrun hrun' (.modify ?_)))
    exact .ok ⟨rfl, n, rfl, ⟨⟨_, _, _, _, rfl⟩, ho, hb, hs⟩, hpack.le, htake⟩
  · obtain ⟨n, sink, T, hrun, hpack, -⟩ := compressIntoSinkWithTable_packed t false h hn
      (by simp [not_not.mp hext]) ((hsink e.dst).trans hk.symm)
    rw [List.eq_nil_of_length_eq_zero (hel.trans (not_not.mp hext))] at hrun
    obtain ⟨sink', hrun', htake⟩ := compressInternal_same hspan hfalse hroom hrun
    refine .liftTo (vecSinkForCompression_eq _ _) (vecSinkForCompression_eq _ _)
      (.liftTo hrun hrun' (.modify ?_))
    exact .ok ⟨rfl, n, rfl, ⟨⟨_, _, _, _, rfl⟩, ho, hb, hs⟩, hpack.le, htake⟩

/-! ## A block -/

/-- `write_block` from where the block is compressed. -/
def finishBlock (t : Target) (max : Nat) (src : List UInt8) (info : BlockInfo) (data : List UInt8) :
    Encode X Unit := do
  seedTable t src
  emitBlock info data
  Proc.modify fun e =>
    if e.frameInfo.contentChecksum then { e with contentHasher := X.write e.contentHasher src } else e
  let e ← Proc.get
  Proc.lift (Run.assert (e.contentLen + src.length < 2 ^ 64))
  Proc.modify fun e => { e with
    contentLen := e.contentLen + src.length, srcStart := e.srcStart + src.length }
  let e ← Proc.get
  Proc.lift (Run.assert (e.srcStart = e.srcEnd))
  slideSource t max src.length
  let e ← Proc.get
  Proc.lift (Run.assert (e.srcStart ≤ e.srcEnd))
  Proc.lift (Run.assert (e.srcStart + max ≤ e.src.capacity))

theorem writeBlock_eq (t : Target) : (FrameEncoder.writeBlock t : Encode X Unit) = (do
    let e ← Proc.get
    Proc.lift (Run.assert e.isFrameOpen)
    let max ← Proc.lift e.frameInfo.blockSize.getSize
    Proc.lift (do Run.assert ((← Run.sub e.srcEnd e.srcStart) ≤ max))
    repositionTable t max
    let block ← Proc.lift (sourceBlock e)
    let res ← compressSrc t block.1 block.2
    let e ← Proc.get
    let data ← Proc.lift (blockData res e.dst.data block.2)
    let data ← Proc.ofExcept data
    finishBlock t max block.2 data.1 data.2) := rfl

theorem finishBlock_tame (hv : Reliable v) (t : Target) (max : Nat) (src : List UInt8)
    (info : BlockInfo) (data : List UInt8) :
    Tame w v P (finishBlock t max src info data : Encode X Unit) := by
  have hhash : Plain fun e : FrameEncoder X => if e.frameInfo.contentChecksum then
      { e with contentHasher := X.write e.contentHasher src } else e := by
    refine ⟨fun e d u o b => ?_, fun e => ?_, fun e => ?_, fun e => ?_, fun e => ?_, fun e _ => ?_⟩
    · by_cases hc : e.frameInfo.contentChecksum = true
      · simp only [if_pos hc]
        exact ⟨_, rfl⟩
      · simp only [if_neg hc]
        exact ⟨_, rfl⟩
    · split <;> rfl
    · split <;> rfl
    · split <;> exact id
    · split <;> rfl
    · split <;> rfl
  unfold finishBlock
  exact .bind (seedTable_tame t src) fun _ => .bind (emitBlock_tame hv info data) fun _ =>
    .bind hhash.tame fun _ => get_tame fun _ => .bind (.lift _) fun _ => .bind (Plain.tame {}) fun _ =>
    get_tame fun _ => .bind (.lift _) fun _ => .bind (slideSource_tame t max _) fun _ =>
    get_tame fun _ => .bind (.lift _) fun _ => .lift _

theorem blockData_same {n : Nat} {dst dst' : List UInt8} (hle : n ≤ dst.length)
    (htake : dst'.take n = dst.take n) (src : List UInt8) :
    blockData (.ok n) dst' src = blockData (.ok n) dst src := by
  have hle' : n ≤ dst'.length := by
    have := congrArg List.length htake
    rw [List.length_take, List.length_take] at this
    omega
  have hseg : seg dst' 0 n = seg dst 0 n := htake
  unfold blockData
  dsimp only
  rw [Run.chunk_eq (by omega), Run.chunk_eq (by omega), hseg]

theorem writeBlock_moves (hv : Reliable v) (t : Target) :
    Moves Onward (FrameEncoder.writeBlock t : Encode X Unit) := by
  rw [writeBlock_eq]
  exact .bind .get fun _ => .bind (.lift _) fun _ => .bind (.lift _) fun _ => .bind (.lift _) fun _ =>
    .bind (repositionTable_tame (w := v) (v := v) (P := True) t _).moves fun _ => .bind (.lift _) fun _ =>
    .bind (compressSrc_moves t _ _) fun _ => .bind .get fun _ => .bind (.lift _) fun _ =>
    .bind (.ofExcept _) fun _ => (finishBlock_tame (w := v) (P := True) hv t _ _ _ _).moves

theorem writeBlock_tandem (hv : Reliable v) (t : Target) (h : Begun f e) (ht : Twin w v P e e') :
    Tandem Onward (fun _ e₁ _ e₁' => Twin w v P e₁ e₁') (Twin w v P) (Behind w v)
      (FrameEncoder.writeBlock t e) (FrameEncoder.writeBlock t e') := by
  have hfinish (max : Nat) (src : List UInt8) (info : BlockInfo) (data : List UInt8) :=
    finishBlock_tame (X := X) (w := w) (P := P) hv t max src info data
  have hdata (max : Nat) (src : List UInt8) (res : Except CompressError Nat) :
      Moves Onward (do
        let e ← Proc.get
        let data ← Proc.lift (blockData res e.dst.data src)
        let data ← Proc.ofExcept data
        finishBlock t max src data.1 data.2 : Encode X Unit) :=
    .bind .get fun _ => .bind (.lift _) fun _ => .bind (.ofExcept _) fun _ => (hfinish _ _ _ _).moves
  have ht₀ := ht
  obtain ⟨⟨d, u, o, b, rfl⟩, -, -, -⟩ := ht
  rw [writeBlock_eq]
  refine .get (.lift fun _ _ => .lift fun max hmax => .lift fun _ _ => ?_)
  rw [h.info, getSize_eq h.source.size] at hmax
  obtain rfl := Run.ret.inj hmax
  have hrep := repositionTable_ok t h.positions (blockLimit_le f.info.blockSize) h.extDictLen_le
  refine (((repositionTable_tame t _).tandem ht₀).and_left (hrep.safe (P := False))).bind
    (fun _ e₁ _ e₁' ⟨⟨_, ht₁⟩, hq⟩ => ?_) fun _ => .bind (.lift _) fun _ =>
      .bind (compressSrc_moves t _ _) fun _ => hdata _ _ _
  obtain ⟨T, n, rfl, hp, hn⟩ := hq
  have hb : Begun f { e with compressionTable := T, srcStreamOffset := n } :=
    ⟨h.source, hp, h.info, h.isOpen, h.len, h.hash⟩
  have hblock := sourceBlock_eq h.source
  refine .liftTo hblock hblock ?_
  refine (compressSrc_tandem t hb hn ht₁).bind (fun res e₂ res' e₂' ⟨hres, k, hk, hp⟩ => ?_)
    fun _ => hdata _ _ _
  subst hres hk
  refine .get ?_
  rw [blockData_same hp.le hp.take_eq]
  refine .lift fun data _ => ?_
  refine ((Respects.ofExcept data).tandem hp.twin).bind (fun a _ a' _ ⟨ha, h₃⟩ => ?_)
    fun _ => (hfinish _ _ _ _).moves
  subst ha
  exact ((hfinish _ _ _ _).tandem h₃).mono fun _ _ _ _ h => h.2

/-! ## Calls -/

section

variable {info : FrameInfo} {dict : List UInt8} {first : Bool} {ended : List (List UInt8)} {p : Progress}
  {w₀ : Writer} {total rest buf : List UInt8}

theorem writeStep_moves (hv : Reliable v) (t : Target) (rest : List UInt8) :
    Moves Onward (writeStep t rest : Encode X (Run.Flow (List UInt8) Unit)) := by
  unfold writeStep
  refine .ite (.pure _) (.bind .get fun _ => .bind (.lift _) fun _ => .bind (.lift _) fun _ =>
    .bind (.lift _) fun _ => .ite ?_ ?_)
  · exact .bind (writeBlock_moves hv t) fun _ => .bind .get fun _ => .bind (.lift _) fun _ => .pure _
  · exact .bind (.lift _) fun _ =>
      .bind (.modify fun _ => ⟨List.prefix_refl _, fun _ => rfl⟩) fun _ => .pure _

theorem writeStep_tandem (hv : Reliable v) (t : Target)
    (h : Writing info dict first ended w₀ total rest e) (ht : Twin w v P e e') :
    Tandem Onward (Proc.IterBoth (fun rest e rest' e' => rest = rest' ∧
        Writing info dict first ended w₀ total rest e ∧ Twin w v P e e')
        fun _ e _ e' => Twin w v P e e') (Twin w v P) (Behind w v)
      (writeStep t rest e) (writeStep t rest e') := by
  have hstep : Tandem Onward (fun flow e flow' e' => flow = flow' ∧ Twin w v P e e') (Twin w v P)
      (Behind w v) (writeStep t rest e) (writeStep t rest e') := by
    obtain ⟨-, f, hl, -⟩ := h
    have ht₀ := ht
    obtain ⟨⟨d, u, o, b, rfl⟩, -, -, -⟩ := ht
    unfold writeStep
    refine .ite (fun _ => .ok ⟨rfl, ht₀⟩) fun _ => .get (.lift fun _ _ => .lift fun _ _ =>
      .lift fun _ _ => .ite (fun _ => ?_) fun _ => ?_)
    · refine (writeBlock_tandem hv t hl.begun ht₀).bind (fun _ e₁ _ e₁' h₁ => ?_) fun _ =>
        .bind .get fun _ => .bind (.lift _) fun _ => .pure _
      exact (get_tame fun _ => .bind (.lift _) fun _ => .pure _ : Tame w v P _).tandem h₁
    · exact (Respects.bind (.lift _) fun _ => .bind (Plain.tame {}) fun _ => .pure _ :
        Tame w v P _).tandem ht₀
  refine (hstep.and_left (writeStep_ok t h)).mono fun flow e₁ flow' e₁' ⟨⟨hflow, h₁⟩, hq⟩ => ?_
  subst hflow
  cases flow with
  | next rest' => exact ⟨rfl, hq.1, h₁⟩
  | done _ => exact h₁

theorem writeLoop_tandem (hv : Reliable v) (t : Target)
    (h : Writing info dict first ended w₀ total buf e) (ht : Twin w v P e e') (n : Nat) :
    Tandem Onward (fun _ e _ e' => Twin w v P e e') (Twin w v P) (Behind w v)
      (Proc.loop (writeStep t) n buf e) (Proc.loop (writeStep t) n buf e') := by
  refine Tandem.loop (fun rest e rest' e' => rest = rest' ∧
    Writing info dict first ended w₀ total rest e ∧ Twin w v P e e') ?_ (writeStep_moves hv t) n buf e
    buf e' ⟨rfl, h, ht⟩
  intro rest e rest' e' ⟨hrest, h, ht⟩
  subst hrest
  exact writeStep_tandem hv t h ht

theorem Twin.failed (h : Twin w v P e e') (b : Bool) :
    Twin w v P { e with failed := b } { e' with failed := b } := by
  obtain ⟨⟨d, u, o, c, rfl⟩, ho, hb, hs⟩ := h
  exact ⟨⟨_, _, _, _, rfl⟩, ho, hb, hs⟩

theorem setFailed_moves (b : Bool) :
    Moves Onward (Proc.modify fun e => { e with failed := b } : Encode X Unit) :=
  .modify fun _ => ⟨List.prefix_refl _, fun _ => rfl⟩

/-- The loop of `write`, and what comes after it. -/
def writeRest (t : Target) (buf : List UInt8) : Encode X Nat := do
  Proc.loop (writeStep t) (2 * buf.length + 2) buf
  Proc.modify fun e => { e with failed := false }
  return buf.length

theorem writeRest_moves (hv : Reliable v) (t : Target) (buf : List UInt8) :
    Moves Onward (writeRest t buf : Encode X Nat) :=
  .bind (.loop (writeStep_moves hv t) _ _) fun _ => .bind (setFailed_moves false) fun _ => .pure _

theorem writeRest_tandem (hv : Reliable v) (t : Target)
    (h : buf = [] ∨ Writing info dict first ended w₀ total buf e) (ht : Twin w v P e e') :
    Tandem Onward (fun n e n' e' => n = n' ∧ Twin w v P e e') (Twin w v P) (Behind w v)
      (writeRest t buf e) (writeRest t buf e') := by
  have hloop : Tandem Onward (fun _ e _ e' => Twin w v P e e') (Twin w v P) (Behind w v)
      (Proc.loop (writeStep t) (2 * buf.length + 2) buf e)
      (Proc.loop (writeStep t) (2 * buf.length + 2) buf e') := by
    rcases h with rfl | h
    · exact .ok ht
    · exact writeLoop_tandem hv t h ht _
  exact hloop.bind (fun _ _ _ _ h => .modify (.ok ⟨rfl, h.failed false⟩)) fun _ =>
    .bind (setFailed_moves false) fun _ => .pure _

theorem write_tandem (hv : Reliable v) (t : Target) (h : Session info dict p w₀ e)
    (ht : Twin w v P e e') (buf : List UInt8) :
    Tandem Onward (fun n e n' e' => n = n' ∧ Twin w v P e e') (Twin w v P) (Behind w v)
      (FrameEncoder.write t buf e) (FrameEncoder.write t buf e') := by
  have ht₀ := ht
  obtain ⟨⟨d, u, o, b, rfl⟩, -, -, -⟩ := ht
  unfold FrameEncoder.write
  refine .get (.ite (fun _ => .error ht₀) fun _ => .modify (.ite (fun hc => ?_) fun hc => ?_))
  · rcases h.state with ⟨-, hr⟩ | ⟨-, f, hl, -⟩
    · have hbegin := (hr.failed true).beginFrame_ok t rfl buf.length
      refine (((beginFrame_tame hv t _).tandem (ht₀.failed true)).and_left
        (hbegin.safe (P := False))).bind (fun _ e₁ _ e₁' ⟨⟨_, h₁⟩, hq⟩ => ?_)
        fun _ => writeRest_moves hv t buf
      obtain ⟨hfailed, f, hl, hopened⟩ := hq
      exact writeRest_tandem hv t (.inr ⟨hfailed, f, hl, rfl⟩) h₁
    · exact absurd (hl.begun.isOpen.symm.trans hc.1) (by decide)
  · rcases h.state with ⟨-, hr⟩ | ⟨-, f, hl, -⟩
    · have hnil : buf = [] := not_not.mp fun hb => hc ⟨hr.rests.closed, hb⟩
      have hbuf : buf = [] ∨ Writing info dict p.first p.ended w₀ [] buf { e with failed := true } :=
        .inl hnil
      exact writeRest_tandem hv t hbuf (ht₀.failed true)
    · exact writeRest_tandem hv t (.inr ⟨rfl, f, hl.failed true, rfl⟩) (ht₀.failed true)

/-- The end of `flush`. -/
def flushRest : Encode X Unit := do
  flushWriter
  Proc.modify fun e => { e with failed := false }

theorem flushRest_moves : Moves Onward (flushRest : Encode X Unit) :=
  .bind flushWriter_moves fun _ => setFailed_moves false

theorem flush_tandem (hv : Reliable v) (t : Target) (h : Session info dict p w₀ e)
    (ht : Twin w v P e e') :
    Tandem Onward (fun _ e _ e' => Twin w v P e e') (Twin w v P) (Behind w v)
      (FrameEncoder.flush t e) (FrameEncoder.flush t e') := by
  have hrest {e e' : FrameEncoder X} (ht : Twin w v P e e') :
      Tandem Onward (fun _ e _ e' => Twin w v P e e') (Twin w v P) (Behind w v)
        (flushRest e) (flushRest e') :=
    ((Respects.bind (flushWriter_tame hv) fun _ => Plain.tame {} : Tame w v P flushRest).tandem ht).mono
      fun _ _ _ _ h => h.2
  have ht₀ := ht
  obtain ⟨⟨d, u, o, b, rfl⟩, -, -, -⟩ := ht
  unfold FrameEncoder.flush
  refine .get (.ite (fun _ => .error ht₀) fun _ => .modify (.ite (fun hc => ?_) fun hc => ?_))
  · rcases h.state with ⟨-, hr⟩ | ⟨-, f, hl, -⟩
    · exact absurd hr.rests.idle hc
    · exact (writeBlock_tandem hv t (hl.failed true).begun (ht₀.failed true)).bind
        (fun _ _ _ _ h₁ => hrest h₁) fun _ => flushRest_moves
  · exact hrest (ht₀.failed true)

/-- The end of `try_finish`. -/
def finishRest : Encode X Unit := do
  endFrame
  Proc.modify fun e => { e with dataToFrameWritten := true, failed := false }

theorem finishRest_tame (hv : Reliable v) : Tame w v P (finishRest : Encode X Unit) := by
  refine .bind (endFrame_tame hv) fun _ => .modify (fun _ => ?_) fun h => ?_
  · exact ⟨List.prefix_refl _, fun _ => rfl⟩
  · obtain ⟨⟨d, u, o, b, rfl⟩, ho, -, hs⟩ := h
    exact ⟨⟨_, _, _, true, rfl⟩, ho, fun _ => rfl, hs⟩

/-- `try_finish` after `flush`. -/
theorem tryFinishRest_moves (hv : Reliable v) (t : Target) :
    Moves Onward (do
      let e ← Proc.get
      if e.isFrameOpen = false ∧ e.dataToFrameWritten then return ()
      else do
        Proc.modify fun e => { e with failed := true }
        if e.isFrameOpen = false then beginFrame t 0 else pure ()
        endFrame
        Proc.modify fun e => { e with dataToFrameWritten := true, failed := false } :
          Encode X Unit) := by
  have hbegin : Moves Onward (beginFrame t 0 : Encode X Unit) :=
    (beginFrame_tame (w := v) (P := True) hv t 0).moves
  have hfinish : Moves Onward (finishRest : Encode X Unit) :=
    (finishRest_tame (w := v) (P := True) hv).moves
  exact .bind .get fun _ => .ite (.pure _)
    (.bind (setFailed_moves true) fun _ => .ite (.bind hbegin fun _ => hfinish) hfinish)

theorem tryFinish_tandem (hv : Reliable v) (t : Target) (h : Session info dict p w₀ e)
    (ht : Twin w v P e e') (hP : P ∨ p.opened ≠ []) :
    Tandem Onward (fun _ e _ e' => Twin w v P e e') (Twin w v P) (Behind w v)
      (FrameEncoder.tryFinish t e) (FrameEncoder.tryFinish t e') := by
  have hrest {e e' : FrameEncoder X} (ht : Twin w v P e e') :
      Tandem Onward (fun _ e _ e' => Twin w v P e e') (Twin w v P) (Behind w v)
        (finishRest e) (finishRest e') :=
    ((finishRest_tame hv).tandem ht).mono fun _ _ _ _ h => h.2
  unfold FrameEncoder.tryFinish
  refine ((flush_tandem hv t h ht).and_left (flush_session t h)).bind
    (fun _ e₁ _ e₁' ⟨h₁, hs, _⟩ => ?_) fun _ => tryFinishRest_moves hv t
  have hwritten : e₁.isFrameOpen = false → e₁'.dataToFrameWritten = e₁.dataToFrameWritten := by
    intro hclosed
    rcases hP with hP | hne
    · exact h₁.written hP
    · rcases hs.state with ⟨hnil, -⟩ | ⟨-, f, hl, -⟩
      · exact absurd hnil hne
      · exact absurd (hl.begun.isOpen.symm.trans hclosed) (by decide)
  have h₂ := h₁
  obtain ⟨⟨d, u, o, b, rfl⟩, -, -, -⟩ := h₁
  refine .get (.iteIff (and_congr_right fun hc => by rw [hwritten hc]) (fun _ => .ok h₂) fun _ =>
    .modify (.ite (fun _ => ?_) fun _ => hrest (h₂.failed true)))
  exact ((beginFrame_tame hv t 0).tandem (h₂.failed true)).bind (fun _ _ _ _ h₃ => hrest h₃.2)
    fun _ => (finishRest_tame (w := v) (P := True) hv).moves

theorem encoderCall_moves (hv : Reliable v) (t : Target) (c : EncoderCall) :
    Moves Onward (encoderCall t c : Encode X Nat) := by
  have hbegin {n : Nat} : Moves Onward (beginFrame t n : Encode X Unit) :=
    (beginFrame_tame (w := v) (P := True) hv t n).moves
  have hflush : Moves Onward (FrameEncoder.flush t : Encode X Unit) :=
    .bind .get fun _ => .ite (.throw _) (.bind (setFailed_moves true) fun _ =>
      .ite (.bind (writeBlock_moves hv t) fun _ => flushRest_moves) flushRest_moves)
  cases c with
  | write buf =>
    have hrest := writeRest_moves (X := X) hv t buf
    exact .bind .get fun _ => .ite (.throw _) (.bind (setFailed_moves true) fun _ =>
      .ite (.bind hbegin fun _ => hrest) hrest)
  | flush => exact .bind hflush fun _ => .pure _
  | tryFinish => exact .bind (.bind hflush fun _ => tryFinishRest_moves hv t) fun _ => .pure _

/-- Twins stay twins in every call, or the left one falls behind. -/
theorem encoderCall_tandem (hv : Reliable v) (t : Target) (h : Session info dict p w₀ e)
    (ht : Twin w v P e e') {c : EncoderCall} (hP : P ∨ (c = .tryFinish → p.opened ≠ [])) :
    Tandem Onward (fun n e n' e' => n = n' ∧ Twin w v P e e') (Twin w v P) (Behind w v)
      (encoderCall t c e) (encoderCall t c e') := by
  cases c with
  | write buf => exact write_tandem hv t h ht buf
  | flush => exact (flush_tandem hv t h ht).bind (fun _ _ _ _ h => .ok ⟨rfl, h⟩) fun _ => .pure _
  | tryFinish =>
    exact (tryFinish_tandem hv t h ht (hP.imp_right fun h => h rfl)).bind
      (fun _ _ _ _ h => .ok ⟨rfl, h⟩) fun _ => .pure _

end

end Lz4rip.Proof.Frame
