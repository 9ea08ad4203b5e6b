import Lz4rip.Proof.Frame.Live

/-!
# A session on the frame encoder

Between calls an encoder that has not failed has no frame open (`Resting`), or it
has a frame open that it has written as the format says (`Live`). Every call keeps
this (`encoderCall_ok`), and so does every run of calls (`encoderRun_ok`): a call
that fails leaves the encoder failed.
-/

namespace Lz4rip.Proof.Frame

open Lz4rip.Impl
open Lz4rip.Impl.FrameEncoder
open Spec (Created EncoderCall Frame Progress encoderCall encoderRun endBytes)

variable {X : XxHash32} {t : Target} {f : Frame} {e : FrameEncoder X}

/-! ## Calls -/

section

variable {info : FrameInfo} {dict : List UInt8} {first : Bool} {ended : List (List UInt8)} {w : Writer}

/-- No frame is open: frames with the contents `ended` are written. -/
structure Resting (info : FrameInfo) (dict : List UInt8) (first : Bool) (ended : List (List UInt8))
    (w : Writer) (e : FrameEncoder X) : Prop where
  rests : Rests e
  info_eq : e.frameInfo = { info with blockSize := e.frameInfo.blockSize }
  dict_eq : e.dict = dict
  first_eq : e.dataToFrameWritten = !first
  sent : ∃ bytes, Spec.Stream X dict info.dictId ended.flatten bytes ∧ Sent w bytes e.w

/-- An encoder that has not failed, after calls that came to `p`. -/
structure Session (info : FrameInfo) (dict : List UInt8) (p : Progress) (w : Writer)
    (e : FrameEncoder X) : Prop where
  fine : e.failed = false
  state : p.opened = [] ∧ Resting info dict p.first p.ended w e ∨
    p.opened ≠ [] ∧ ∃ f, Live info dict p.first p.ended w f e ∧ opened f e = p.opened

theorem Resting.failed (h : Resting info dict first ended w e) (b : Bool) :
    Resting info dict first ended w { e with failed := b } :=
  ⟨⟨h.rests.closed, h.rests.idle, h.rests.sized, fun hl => by
    obtain ⟨h₁, h₂, h₃, h₄, h₅, h₆, h₇, h₈⟩ := h.rests.pristine hl
    exact ⟨h₁, h₂, h₃, h₄, h₅, h₆, h₇, h₈⟩⟩, h.info_eq, h.dict_eq, h.first_eq, h.sent⟩

theorem Live.failed (h : Live info dict first ended w f e) (b : Bool) :
    Live info dict first ended w f { e with failed := b } := by
  obtain ⟨⟨hs, hp, hi, ho, hl, hh⟩, hinfo, hdict, hfirst, hpristine, hsent⟩ := h
  refine ⟨⟨hs, hp, hi, ho, hl, hh⟩, hinfo, hdict, hfirst, fun hnil => ?_, hsent⟩
  obtain ⟨h₁, h₂, h₃, h₄, h₅, h₆, h₇, h₈⟩ := hpristine hnil
  exact ⟨h₁, h₂, h₃, h₄, h₅, h₆, h₇, h₈⟩

/-- A writer that has taken nothing more. -/
theorem Resting.writer (h : Resting info dict first ended w e) {w' : Writer} (hs : Sent e.w [] w') :
    Resting info dict first ended w { e with w := w' } := by
  obtain ⟨⟨hclosed, hidle, hsized, hp⟩, hinfo, hdict, hfirst, bytes, hstream, hsent⟩ := h
  have hsent := hsent.trans hs
  rw [List.append_nil] at hsent
  refine ⟨⟨hclosed, hidle, hsized, fun hl => ?_⟩, hinfo, hdict, hfirst, bytes, hstream, hsent⟩
  obtain ⟨h₁, h₂, h₃, h₄, h₅, h₆, h₇, h₈⟩ := hp hl
  exact ⟨h₁, h₂, h₃, h₄, h₅, h₆, h₇, h₈⟩

theorem Live.writer (h : Live info dict first ended w f e) {w' : Writer} (hs : Sent e.w [] w') :
    Live info dict first ended w f { e with w := w' } := by
  obtain ⟨⟨hs', hp, hi, ho, hl, hh⟩, hinfo, hdict, hfirst, hpristine, bytes, more, hstream, hframe,
    hsent⟩ := h
  have hsent := hsent.trans hs
  rw [List.append_nil] at hsent
  refine ⟨⟨hs', hp, hi, ho, hl, hh⟩, hinfo, hdict, hfirst, fun hnil => ?_, bytes, more, hstream, hframe,
    hsent⟩
  obtain ⟨h₁, h₂, h₃, h₄, h₅, h₆, h₇, h₈⟩ := hpristine hnil
  exact ⟨h₁, h₂, h₃, h₄, h₅, h₆, h₇, h₈⟩

theorem Resting.faulty (h : Resting info dict first ended w e) (hf : e.failed = true)
    {e' : FrameEncoder X} (he : Faulty e e') (err : Error) : Failed w err e' := by
  obtain ⟨bytes, -, hsent⟩ := h.sent
  exact ⟨he.1.trans hf, fun hr => he.2 (hsent.reliable hr)⟩

/-- A frame that is begun. -/
theorem Resting.begin {bufLen : Nat} {e' : FrameEncoder X} (h : Resting info dict first ended w e)
    (hb : Begins (resolve e.frameInfo bufLen) e e') :
    Live info dict first ended w ⟨resolve e.frameInfo bufLen, []⟩ e' ∧
      opened ⟨resolve e.frameInfo bufLen, []⟩ e' = [] := by
  obtain ⟨bytes, hstream, hsent⟩ := h.sent
  have hinfo : resolve e.frameInfo bufLen =
      { info with blockSize := (resolve e.frameInfo bufLen).blockSize } := by
    rw [resolve_eq, h.info_eq]
  have hpl := hb.begun.source.length_pending
  refine ⟨⟨hb.begun, hinfo, hb.keeps.dict.trans h.dict_eq, hb.keeps.written.trans h.first_eq,
    fun _ => hb.pristine, bytes, _, hstream, .header (resolve_blockSize _ _), hsent.trans hb.sent⟩, ?_⟩
  refine List.eq_nil_of_length_eq_zero (hpl.trans ?_)
  simp only [sourceOf, hb.pristine.start, hb.pristine.stop]

/-- The beginning of `write`. -/
theorem Resting.beginFrame_ok (t : Target) (h : Resting info dict first ended w e)
    (hf : e.failed = true) (bufLen : Nat) :
    Proc.WP (fun _ e' => e'.failed = true ∧ ∃ f, Live info dict first ended w f e' ∧ opened f e' = [])
      (Failed w) (beginFrame t bufLen e) :=
  (Frame.beginFrame_ok t h.rests bufLen).mono
    (fun _ _ hb => ⟨hb.keeps.failed.trans hf, _, h.begin hb⟩) fun err _ he => h.faulty hf he err

section

variable {p : Progress}

/-- The loop of `write`. -/
theorem writeLoop_ok (t : Target) {total buf : List UInt8}
    (h : Writing info dict first ended w total buf e) :
    Proc.Safe (2 ^ 64 ≤ total.length) (fun _ e' => Writing info dict first ended w total [] e')
      (Failed w) (Proc.loop (writeStep t) (2 * buf.length + 2) buf e) := by
  have hleft : writeLeft buf e < 2 * buf.length + 2 := by
    unfold writeLeft
    split <;> omega
  exact Proc.Safe.loop (Writing info dict first ended w total) writeLeft
    (fun _ _ hI => writeStep_ok t hI) _ _ _ h hleft

/-- The end of `write`, in an open frame. -/
theorem writeRest_ok (t : Target) {total buf : List UInt8} (hne : total ≠ [])
    (h : Writing info dict first ended w total buf e) :
    Proc.Safe (2 ^ 64 ≤ total.length)
      (fun n e' => n = buf.length ∧ Session info dict ⟨first, total, ended⟩ w e') (Failed w)
      ((do
        Proc.loop (writeStep t) (2 * buf.length + 2) buf
        Proc.modify fun e => { e with failed := false }
        return buf.length : Encode X Nat) e) := by
  refine (writeLoop_ok t h).bind fun _ e' he' => ?_
  obtain ⟨-, f, hl, htotal⟩ := he'
  rw [List.append_nil] at htotal
  exact .inl ⟨rfl, rfl, .inr ⟨hne, f, hl.failed false, htotal⟩⟩

theorem write_session (t : Target) (h : Session info dict p w e) (buf : List UInt8) :
    Proc.Safe (2 ^ 64 ≤ (p.opened ++ buf).length)
      (fun n e' => n = buf.length ∧ Session info dict (p.step (.write buf)) w e') (Failed w)
      (FrameEncoder.write t buf e) := by
  have hfine : ¬ e.failed = true := by
    rw [h.fine]
    decide
  unfold FrameEncoder.write
  rw [Proc.bind_run, Proc.get_run, Run.ret_bind, Proc.andThen_ok, Proc.ite_run, if_neg hfine,
    Proc.bind_run, Proc.modify_run, Run.ret_bind, Proc.andThen_ok]
  rcases h.state with ⟨hnil, hr⟩ | ⟨hne, f, hl, hopened⟩
  · have hclosed : e.isFrameOpen = false := hr.rests.closed
    rw [hnil, List.nil_append]
    by_cases hbuf : buf = []
    · subst hbuf
      rw [if_neg (fun h => h.2 rfl)]
      beta_reduce
      have hstop : writeStep t [] { e with failed := true } =
          .ret (.ok (.done ()), { e with failed := true }) := rfl
      rw [Proc.bind_run, Proc.loop_done hstop, Run.ret_bind, Proc.andThen_ok, Proc.bind_run,
        Proc.modify_run, Run.ret_bind, Proc.andThen_ok]
      refine .inl ⟨rfl, rfl, .inl ⟨?_, hr.failed false⟩⟩
      rw [Progress.step, List.append_nil]
      exact hnil
    · rw [if_pos ⟨hclosed, hbuf⟩]
      refine Proc.Safe.bind ((hr.failed true).beginFrame_ok t rfl buf.length).safe fun _ e₁ he₁ => ?_
      obtain ⟨hfailed, f, hl, hopened⟩ := he₁
      have hw := writeRest_ok t hbuf ⟨hfailed, f, hl, by rw [hopened, List.nil_append]⟩
      refine hw.mono id (fun _ _ hq => ?_) fun _ _ he => he
      rwa [Progress.step, hnil, List.nil_append]
  · have hopen : ¬ (e.isFrameOpen = false ∧ buf ≠ []) := fun hc => by
      rw [hl.begun.isOpen] at hc
      exact absurd hc.1 (by decide)
    rw [if_neg hopen]
    have htotal : p.opened ++ buf ≠ [] := fun hc => hne (List.append_eq_nil_iff.mp hc).1
    exact writeRest_ok t htotal ⟨rfl, f, hl.failed true, by rw [← hopened]; rfl⟩

/-- The end of `flush`. -/
theorem flushRest_ok (h : Session info dict p w { e with failed := false }) (hf : e.failed = true)
    (hidle : e.srcStart = e.srcEnd) :
    Proc.WP (fun _ e' => Session info dict p w e' ∧ e'.srcStart = e'.srcEnd) (Failed w)
      ((do
        flushWriter
        Proc.modify fun e => { e with failed := false } : Encode X Unit) e) := by
  have hsent : ∃ bytes, Sent w bytes e.w := by
    rcases h.state with ⟨-, hr⟩ | ⟨-, f, hl, -⟩
    · obtain ⟨bytes, -, hs⟩ := hr.sent
      exact ⟨bytes, hs⟩
    · obtain ⟨bytes, more, -, -, hs⟩ := hl.sent
      exact ⟨_, hs⟩
  obtain ⟨bytes, hsent⟩ := hsent
  refine Proc.WP.bind ((flushWriter_ok e).mono (fun _ _ hq => hq) fun _ e' he =>
    ⟨he.1.trans hf, fun hr => he.2 (hsent.reliable hr)⟩) fun _ e₁ he₁ => ?_
  obtain ⟨w', hs, rfl⟩ := he₁
  refine ⟨⟨rfl, ?_⟩, hidle⟩
  rcases h.state with ⟨hnil, hr⟩ | ⟨hne, f, hl, hopened⟩
  · exact .inl ⟨hnil, hr.writer hs⟩
  · exact .inr ⟨hne, f, hl.writer hs, hopened⟩

theorem flush_session (t : Target) (h : Session info dict p w e) :
    Proc.Safe (2 ^ 64 ≤ p.opened.length)
      (fun _ e' => Session info dict p w e' ∧ e'.srcStart = e'.srcEnd) (Failed w)
      (FrameEncoder.flush t e) := by
  have hfine : ¬ e.failed = true := by
    rw [h.fine]
    decide
  unfold FrameEncoder.flush
  rw [Proc.bind_run, Proc.get_run, Run.ret_bind, Proc.andThen_ok, Proc.ite_run, if_neg hfine,
    Proc.bind_run, Proc.modify_run, Run.ret_bind, Proc.andThen_ok]
  by_cases hidle : e.srcStart = e.srcEnd
  · rw [if_neg (not_not.mpr hidle)]
    have hsame : Session info dict p w { e with failed := false } := by
      have heq : { e with failed := false } = e := by rw [← h.fine]
      rw [heq]
      exact h
    exact (flushRest_ok (e := { e with failed := true }) hsame rfl hidle).safe
  · rw [if_pos hidle]
    rcases h.state with ⟨-, hr⟩ | ⟨hne, f, hl, hopened⟩
    · exact absurd hr.rests.idle hidle
    · have hwrite := (writeBlock_ok t (hl.failed true).begun).mono
        (fun hover : _ => show 2 ^ 64 ≤ p.opened.length from ?_) (fun _ _ hq => hq)
        fun err _ he => (hl.failed true).faulty rfl he err
      · refine Proc.Safe.bind hwrite fun _ e₁ hw => ?_
        obtain ⟨hl₁, hopened₁⟩ := (hl.failed true).block hidle hw
        exact (flushRest_ok ⟨rfl, .inr ⟨hne, _, hl₁.failed false, hopened₁.trans hopened⟩⟩
          hw.keeps.failed hw.start_eq).safe
      · rw [← hopened, opened, List.length_append]
        exact hover

theorem checkContentLen_congr {i j : FrameInfo} (h : i.contentSize = j.contentSize) (n : Nat) :
    checkContentLen i n = checkContentLen j n := by
  rw [checkContentLen, checkContentLen, h]

/-- `try_finish` fails with the writer, or with the length of the content. -/
def Stopped (info : FrameInfo) (w : Writer) (content : List UInt8) (_ : Error)
    (e : FrameEncoder X) : Prop :=
  e.failed = true ∧ (Reliable w → checkContentLen info content.length ≠ .ok ())

theorem Failed.stopped {content : List UInt8} {err : Error} (h : Failed w err e) :
    Stopped info w content err e :=
  ⟨h.1, fun hr => absurd hr h.2⟩

/-- A frame that is ended. -/
theorem Live.end (h : Live info dict first ended w f e) (hidle : e.srcStart = e.srcEnd)
    (hok : checkContentLen info f.content.length = .ok ()) {e' : FrameEncoder X}
    (he : Wrote e (endBytes X f) e') :
    Resting info dict first (ended ++ [f.content]) w { e' with isFrameOpen := false } := by
  obtain ⟨w', hs, rfl⟩ := he
  obtain ⟨⟨hsource, -, hi, -, hl, -⟩, hinfo, hdict, hfirst, hpristine, bytes, more, hstream, hframe,
    hsent⟩ := h
  have hcheck : checkContentLen f.info f.content.length = .ok () :=
    (checkContentLen_congr (by rw [hinfo]) _).trans hok
  have hid : f.info.dictId = info.dictId := by rw [hinfo]
  have hsized : Sized e.frameInfo e.src := by
    rw [hi]
    exact .inr ⟨hsource.size, hsource.length_le, hsource.capacity⟩
  refine ⟨⟨rfl, hidle, hsized, fun hzero => ?_⟩, ?_, hdict, hfirst, _, ?_, hsent.trans hs⟩
  · have hnil : opened f e = [] := by
      have hpl : (sourceOf e).pending.length = e.srcEnd - e.srcStart := hsource.length_pending
      have hzero : e.contentLen = 0 := hzero
      rw [hl] at hzero
      rw [opened, List.eq_nil_of_length_eq_zero hzero,
        List.eq_nil_of_length_eq_zero (hpl.trans (by omega)), List.append_nil]
    obtain ⟨h₁, h₂, h₃, h₄, h₅, h₆, h₇, h₈⟩ := hpristine hnil
    exact ⟨h₁, h₂, h₃, h₄, h₅, h₆, h₇, h₈⟩
  · dsimp only
    rw [hi]
    exact hinfo
  · rw [List.flatten_append, List.flatten_cons, List.flatten_nil, List.append_nil, List.append_assoc]
    exact hstream.frame hframe hid hcheck

theorem endFrame_ok (h : Live info dict first ended w f e) (hf : e.failed = true)
    (hidle : e.srcStart = e.srcEnd) :
    Proc.WP (fun _ e' => Resting info dict first (ended ++ [f.content]) w e') (Stopped info w f.content)
      (endFrame e) := by
  have hcheck : checkContentLen f.info f.content.length = checkContentLen info f.content.length :=
    checkContentLen_congr (by rw [h.info_eq]) _
  unfold endFrame
  rw [Proc.bind_run, Proc.get_run, Run.ret_bind, Proc.andThen_ok, Proc.bind_run, Proc.lift_run,
    Run.assert, if_pos h.begun.isOpen, Run.ret_bind, Run.ret_bind, Proc.andThen_ok, h.begun.info,
    h.begun.len, hcheck]
  refine Proc.WP.bind (Proc.WP_ofExcept (Q := fun _ e' => e' = e ∧
    checkContentLen info f.content.length = .ok ()) (fun _ hok => ⟨rfl, hok⟩)
    fun err herr => ⟨hf, fun _ hok => ?_⟩) fun _ e₁ he₁ => ?_
  · rw [hok] at herr
    cases herr
  obtain ⟨rfl, hok⟩ := he₁
  rw [Proc.bind_run, BlockInfo.write, Proc.ofExcept_run, Run.ret_bind, Proc.andThen_ok]
  refine Proc.WP.bind ((writeAll_ok e₁ _).mono (fun _ _ hq => hq) fun err _ he =>
    (h.faulty hf he err).stopped) fun _ e₂ h₂ => ?_
  have hbytes : endBytes X f = leOfU32 0 ++ if f.info.contentChecksum then
    leOfU32 (finish32 X (f.hash X)) else [] := rfl
  rw [Proc.ite_run]
  by_cases hc : f.info.contentChecksum = true
  · rw [if_pos hc] at hbytes
    rw [if_pos hc, h.begun.hash hc]
    refine Proc.WP.bind ((h₂.then (writeAll_ok e₂ _)).mono (fun _ _ hq => hq) fun err _ he =>
      (h.faulty hf he err).stopped) fun _ e₃ h₃ => ?_
    rw [← hbytes] at h₃
    exact h.end hidle hok h₃
  · rw [if_neg hc, List.append_nil] at hbytes
    rw [if_neg hc]
    rw [← hbytes] at h₂
    exact h.end hidle hok h₂

/-- The end of `try_finish`. -/
theorem finishRest_ok (h : Live info dict first ended w f e) (hf : e.failed = true)
    (hidle : e.srcStart = e.srcEnd) :
    Proc.WP (fun _ e' => Session info dict ⟨false, [], ended ++ [opened f e]⟩ w e')
      (Stopped info w (opened f e))
      ((do
        endFrame
        Proc.modify fun e => { e with dataToFrameWritten := true, failed := false } :
          Encode X Unit) e) := by
  have hopened : opened f e = f.content := by
    have hpl : (sourceOf e).pending.length = e.srcEnd - e.srcStart := h.begun.source.length_pending
    rw [opened, List.eq_nil_of_length_eq_zero (hpl.trans (by omega)), List.append_nil]
  rw [hopened]
  refine Proc.WP.bind (endFrame_ok h hf hidle) fun _ e' he' => ?_
  obtain ⟨hrests, hinfo, hdict, -, hsent⟩ := he'.failed false
  refine ⟨rfl, .inl ⟨rfl, ⟨hrests.closed, hrests.idle, hrests.sized, fun hl => ?_⟩, hinfo, hdict, rfl,
    hsent⟩⟩
  obtain ⟨h₁, h₂, h₃, h₄, h₅, h₆, h₇, h₈⟩ := hrests.pristine hl
  exact ⟨h₁, h₂, h₃, h₄, h₅, h₆, h₇, h₈⟩

/-- A call fails with the writer, or it ends a frame that has not the length in its
header. -/
def Halted (info : FrameInfo) (w : Writer) (p : Progress) (c : EncoderCall) (_ : Error)
    (e : FrameEncoder X) : Prop :=
  e.failed = true ∧
    (Reliable w → ∃ content ∈ (p.step c).ended, checkContentLen info content.length ≠ .ok ())

theorem Failed.halted {c : EncoderCall} {err : Error} (h : Failed w err e) :
    Halted info w p c err e :=
  ⟨h.1, fun hr => absurd hr h.2⟩

theorem Stopped.halted {err : Error} (h : Stopped info w p.opened err e)
    (hs : p.step .tryFinish = ⟨false, [], p.ended ++ [p.opened]⟩) :
    Halted info w p .tryFinish err e :=
  ⟨h.1, fun hr => ⟨p.opened, by rw [hs]; exact List.mem_append_right _ (List.mem_singleton.mpr rfl), h.2 hr⟩⟩

theorem tryFinish_session (t : Target) (h : Session info dict p w e) :
    Proc.Safe (2 ^ 64 ≤ p.opened.length)
      (fun _ e' => Session info dict (p.step .tryFinish) w e') (Halted info w p .tryFinish)
      (FrameEncoder.tryFinish t e) := by
  unfold FrameEncoder.tryFinish
  refine Proc.Safe.bind ((flush_session t h).mono id (fun _ _ hq => hq) fun _ _ he => he.halted)
    fun _ e₁ he₁ => ?_
  obtain ⟨⟨hfine, hstate⟩, hidle⟩ := he₁
  rw [Proc.bind_run, Proc.get_run, Run.ret_bind, Proc.andThen_ok, Proc.ite_run]
  rcases hstate with ⟨hnil, hr⟩ | ⟨hne, f, hl, hopened⟩
  · cases hfirst : p.first with
    | false =>
      have hdone : e₁.isFrameOpen = false ∧ e₁.dataToFrameWritten = true :=
        ⟨hr.rests.closed, by rw [hr.first_eq, hfirst]; rfl⟩
      rw [if_pos hdone, Progress.step, if_pos ⟨hnil, hfirst⟩]
      exact .inl ⟨hfine, .inl ⟨hnil, hr⟩⟩
    | true =>
      have hmore : ¬ (e₁.isFrameOpen = false ∧ e₁.dataToFrameWritten = true) := fun hc => by
        rw [hr.first_eq, hfirst] at hc
        exact absurd hc.2 (by decide)
      have hclosed : e₁.isFrameOpen = false := hr.rests.closed
      have hstep : p.step .tryFinish = ⟨false, [], p.ended ++ [p.opened]⟩ := by
        rw [Progress.step, if_neg (fun hc => absurd (hfirst.symm.trans hc.2) (by decide))]
      rw [if_neg hmore, Proc.bind_run, Proc.modify_run, Run.ret_bind, Proc.andThen_ok, Proc.ite_run,
        if_pos hclosed]
      refine Proc.Safe.bind (((hr.failed true).beginFrame_ok t rfl 0).mono (fun _ _ hq => hq)
        fun _ _ he => he.halted).safe fun _ e₂ he₂ => ?_
      obtain ⟨hfailed, f, hl, hopened⟩ := he₂
      have hp := hl.pristine hopened
      have hend := finishRest_ok hl hfailed (hp.start.trans hp.stop.symm)
      rw [hopened, ← hnil] at hend
      rw [hstep]
      exact (hend.mono (fun _ _ hq => by rwa [hnil] at hq ⊢) fun _ _ he => he.halted hstep).safe
  · have hmore : ¬ (e₁.isFrameOpen = false ∧ e₁.dataToFrameWritten = true) := fun hc => by
      rw [hl.begun.isOpen] at hc
      exact absurd hc.1 (by decide)
    have hopen : ¬ e₁.isFrameOpen = false := fun hc => by
      rw [hl.begun.isOpen] at hc
      cases hc
    have hstep : p.step .tryFinish = ⟨false, [], p.ended ++ [p.opened]⟩ := by
      rw [Progress.step, if_neg (fun hc => hne hc.1)]
    have hend := finishRest_ok (hl.failed true) rfl hidle
    rw [show opened f { e₁ with failed := true } = p.opened from hopened] at hend
    rw [if_neg hmore, Proc.bind_run, Proc.modify_run, Run.ret_bind, Proc.andThen_ok, Proc.ite_run,
      if_neg hopen, hstep]
    exact (hend.mono (fun _ _ hq => hq) fun _ _ he => he.halted hstep).safe

/-- Every call keeps the session, or leaves the encoder failed. -/
theorem encoderCall_ok (t : Target) (h : Session info dict p w e) (c : EncoderCall) :
    Proc.Safe (2 ^ 64 ≤ (p.opened ++ c.bytes).length)
      (fun n e' => n = c.bytes.length ∧ Session info dict (p.step c) w e') (Halted info w p c)
      (encoderCall t c e) := by
  cases c with
  | write buf => exact (write_session t h buf).mono id (fun _ _ hq => hq) fun _ _ he => he.halted
  | flush =>
    rw [EncoderCall.bytes, List.append_nil]
    refine Proc.Safe.bind ((flush_session t h).mono id (fun _ _ hq => hq) fun _ _ he => he.halted)
      fun _ _ he => ?_
    exact .inl ⟨rfl, he.1⟩
  | tryFinish =>
    rw [EncoderCall.bytes, List.append_nil]
    refine Proc.Safe.bind (tryFinish_session t h) fun _ _ he => ?_
    exact .inl ⟨rfl, he⟩

end

/-! ## Runs -/

/-- An encoder that has failed refuses every call, and stays as it is. -/
theorem encoderCall_failed (t : Target) (hf : e.failed = true) (c : EncoderCall) :
    encoderCall t c e = .ret (.error REUSED, e) := by
  cases c with
  | write buf =>
    show FrameEncoder.write t buf e = _
    rw [FrameEncoder.write, Proc.bind_run, Proc.get_run, Run.ret_bind, Proc.andThen_ok, Proc.ite_run,
      if_pos hf, Proc.throw_run]
  | flush =>
    rw [encoderCall, Proc.bind_run, FrameEncoder.flush, Proc.bind_run, Proc.get_run, Run.ret_bind,
      Proc.andThen_ok, Proc.ite_run, if_pos hf, Proc.throw_run, Run.ret_bind, Proc.andThen_error]
  | tryFinish =>
    rw [encoderCall, Proc.bind_run, FrameEncoder.tryFinish, Proc.bind_run, FrameEncoder.flush,
      Proc.bind_run, Proc.get_run, Run.ret_bind, Proc.andThen_ok, Proc.ite_run, if_pos hf,
      Proc.throw_run, Run.ret_bind, Proc.andThen_error, Run.ret_bind, Proc.andThen_error]

theorem encoderRun_cons (t : Target) (e : FrameEncoder X) (c : EncoderCall) (cs : List EncoderCall) :
    encoderRun t e (c :: cs) = (encoderCall t c e >>= fun p => encoderRun t p.2 cs >>= fun q =>
      .ret (p.1 :: q.1, q.2)) := rfl

theorem encoderRun_failed (t : Target) (hf : e.failed = true) : ∀ cs : List EncoderCall,
    encoderRun t e cs = .ret (cs.map fun _ => .error REUSED, e)
  | [] => rfl
  | c :: cs => by
    rw [encoderRun_cons, encoderCall_failed t hf, Run.ret_bind, encoderRun_failed t hf cs,
      Run.ret_bind]
    rfl

/-- The contents of some frame grow too long for a `u64` in these calls. -/
def Outgrows (p : Progress) (cs : List EncoderCall) : Prop :=
  ∃ cs', cs' <+: cs ∧ 2 ^ 64 ≤ (cs'.foldl Progress.step p).opened.length

theorem Outgrows.cons {p : Progress} {c : EncoderCall} {cs : List EncoderCall}
    (h : Outgrows (p.step c) cs) : Outgrows p (c :: cs) := by
  obtain ⟨cs', hpre, hlen⟩ := h
  exact ⟨c :: cs', (List.prefix_cons_inj c).mpr hpre, hlen⟩

theorem Outgrows.of_call {p : Progress} {c : EncoderCall} (cs : List EncoderCall)
    (h : 2 ^ 64 ≤ (p.opened ++ c.bytes).length) : Outgrows p (c :: cs) := by
  cases c with
  | write buf => exact ⟨[.write buf], List.prefix_append [.write buf] cs, h⟩
  | flush => exact ⟨[], List.nil_prefix, by rwa [EncoderCall.bytes, List.append_nil] at h⟩
  | tryFinish => exact ⟨[], List.nil_prefix, by rwa [EncoderCall.bytes, List.append_nil] at h⟩

/-- What calls come to: all succeed, or one has failed. -/
inductive Ran (info : FrameInfo) (dict : List UInt8) (w : Writer) (p : Progress)
    (cs : List EncoderCall) : List (Except Error Nat) × FrameEncoder X → Prop where
  | ok {e' : FrameEncoder X} (h : Session info dict (cs.foldl Progress.step p) w e') :
    Ran info dict w p cs (cs.map fun c => .ok c.bytes.length, e')
  | failed {rs : List (Except Error Nat)} {e' : FrameEncoder X} (hf : e'.failed = true)
    (hr : Reliable w → ∃ content ∈ (cs.foldl Progress.step p).ended,
      checkContentLen info content.length ≠ .ok ()) : Ran info dict w p cs (rs, e')

theorem ended_subset {p : Progress} (cs : List EncoderCall) :
    p.ended ⊆ (cs.foldl Progress.step p).ended := by
  induction cs generalizing p with
  | nil => exact List.Subset.refl _
  | cons c cs ih =>
    refine List.Subset.trans ?_ (ih (p := p.step c))
    cases c with
    | write buf => exact List.Subset.refl _
    | flush => exact List.Subset.refl _
    | tryFinish =>
      rw [Progress.step]
      split
      · exact List.Subset.refl _
      · exact List.subset_append_left _ _

/-- Every run of calls keeps the session, up to a call that fails. It does not panic
unless the content of a frame is too long. -/
theorem encoderRun_ok (t : Target) : ∀ (cs : List EncoderCall) {p : Progress} {e : FrameEncoder X},
    Session info dict p w e → (encoderRun t e cs = .panic ∧ Outgrows p cs) ∨
      (encoderRun t e cs).WP (Ran info dict w p cs)
  | [], p, e, h => .inr (.ok h)
  | c :: cs, p, e, h => by
    rw [encoderRun_cons]
    rcases encoderCall_ok t h c with hc | ⟨hc, hover⟩
    · rcases Proc.WP_iff.mp hc with ⟨n, e', hrun, rfl, hs⟩ | ⟨err, e', hrun, hf, hhalt⟩
      · rw [hrun, Run.ret_bind]
        rcases encoderRun_ok t cs hs with ⟨hpanic, hover⟩ | hran
        · rw [hpanic]
          exact .inl ⟨rfl, hover.cons⟩
        · refine .inr (Run.WP_bind.mpr (hran.mono fun q hq => ?_))
          cases hq with
          | ok hs' => exact .ok hs'
          | failed hf hr => exact .failed hf hr
      · rw [hrun, Run.ret_bind, encoderRun_failed t hf]
        refine .inr (.failed hf fun hr => ?_)
        obtain ⟨content, hmem, hne⟩ := hhalt hr
        exact ⟨content, ended_subset cs hmem, hne⟩
    · rw [hc]
      exact .inl ⟨rfl, .of_call cs hover⟩

end

theorem withFrameInfo_session {w : Writer} {info : FrameInfo} (h : withFrameInfo X info w = .ret e)
    (dict : List UInt8) : Session info dict .start w { e with dict } := by
  have hnew : HashTable.new 32 DEFAULT_NODICT_ENTRIES = .ret (.zero 32 DEFAULT_NODICT_ENTRIES) := by
    rw [HashTable.new, Run.assert, if_pos (by decide)]
    rfl
  rw [withFrameInfo, hnew, Run.ret_bind, Run.pure_eq] at h
  obtain rfl := Run.ret.inj h
  refine ⟨rfl, .inl ⟨rfl, ⟨rfl, rfl, .inl rfl, fun _ => ⟨rfl, rfl, rfl, rfl, rfl, rfl, rfl, rfl⟩⟩, rfl, rfl,
    rfl, [], .nil, .refl _⟩⟩

theorem withFrameInfo_info {w : Writer} {info : FrameInfo} (h : withFrameInfo X info w = .ret e) :
    e.frameInfo = info := by
  obtain ⟨T, -, he⟩ := Run.bind_eq_ret.mp h
  obtain rfl := Run.ret.inj he
  rfl

/-- A new encoder is between frames. -/
theorem created_session {w : Writer} (h : Created X w e) : Session e.frameInfo e.dict .start w e := by
  cases h with
  | new h =>
    have hi := withFrameInfo_info h
    rw [hi]
    exact withFrameInfo_session h e.dict
  | withFrameInfo h =>
    have hi := withFrameInfo_info h
    rw [hi]
    exact withFrameInfo_session h e.dict
  | withDictionary h =>
    obtain ⟨e', hnew, he⟩ := Run.bind_eq_ret.mp h
    have hi := withFrameInfo_info hnew
    obtain rfl := Run.ret.inj he
    have hs := withFrameInfo_session hnew
    rw [← hi] at hs
    exact hs _

end Lz4rip.Proof.Frame
