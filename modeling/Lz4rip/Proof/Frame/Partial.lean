import Lz4rip.Proof.Frame.RoundTrip

/-!
# What is taken is part of what is written

Whatever its writer does, an encoder has it take a part of frames that have a part of what
the calls were given (`encoderRun_sends`). So a decoder of what is taken gives nothing else,
and if it fails then at the end of the file or at its limit (`encoderRun_part`). After a
`flush` that succeeds it gives all of it (`flush_delivers`), and without one all but a block
(`encoderRun_lag`).
-/

namespace Lz4rip.Proof.Frame

open Lz4rip.Impl
open Lz4rip.Impl.FrameEncoder
open Spec (Created EncoderCall Frame FrameText Naive Progress Settings Text WriteCall autoDrop blockLimit
  encoderCall encoderRun)

/-! ## Frames up to an open one -/

/-- Whole frames, and maybe the header and blocks of another. -/
inductive Unfinished (X : XxHash32) (dict : List UInt8) (dictId : Option UInt32) :
    List UInt8 → List UInt8 → Prop where
  | ended {content bytes : List UInt8} (h : Text X dict dictId content bytes) :
    Unfinished X dict dictId content bytes
  | opened {content bytes more : List UInt8} {f : Frame} (h : Text X dict dictId content bytes)
    (hf : FrameText X dict f more) (hid : f.info.dictId = dictId) :
    Unfinished X dict dictId (content ++ f.content) (bytes ++ more)

section

variable {X : XxHash32} {S : Settings} {content bytes : List UInt8}

/-- In a frame whose end mark is not there yet, the file ends. -/
theorem readMoreStep_eof (X : XxHash32) (S : Settings) (F : Frame) (out : Nat) :
    Naive.readMoreStep X S () (reading (some F) [] out) = .ret (.error EOF, reading none [] out) := by
  have hnext : Spec.nextBlock X S F out ([] : List UInt8) = .ret (.error EOF, []) := rfl
  rw [readMoreStep_frame, blockStep_error hnext]

/-- All of the content is decoded, and then the frames end or the file does, unless there is
more than the limit. -/
theorem Unfinished.left (hX : Spec.Lawful X) (hmax : S.maxOutput < S.target.modulus)
    (h : Unfinished X S.dict S.dictId content bytes) :
    (content.length ≤ S.maxOutput → ∃ o f, Left X S (Naive.start bytes) content o f ∧
      (o = none ∨ o = some EOF)) ∧
    (S.maxOutput < content.length → ∃ D f n, D <+: content ∧
      Left X S (Naive.start bytes) D (some (Exceeded S n)) f) := by
  cases h with
  | ended h =>
    obtain ⟨hall, hpart⟩ := Text.left hX hmax h 0
    rw [Nat.zero_add] at hall hpart
    refine ⟨fun hle => ?_, fun hlt => ?_⟩
    · obtain ⟨f, hleft⟩ := hall hle
      exact ⟨none, f, hleft, .inl rfl⟩
    · obtain ⟨D, f, n, hpre, -, -, -, hleft⟩ := hpart (Nat.zero_le _) hlt
      exact ⟨D, f, n, hpre, hleft⟩
  | @opened content bytes more F h hf hid =>
    obtain ⟨hreach, hover⟩ := Text.reads 0 hX hmax h more
    obtain ⟨hframe, hlong⟩ := FrameText.reads (0 + content.length) hX hmax hf hid []
    rw [List.append_nil] at hframe hlong
    rw [List.length_append]
    refine ⟨fun hle => ?_, fun hlt => ?_⟩
    · obtain ⟨-, blocks, hblocks, hd⟩ := (hreach (by omega)).trans (hframe (by omega))
      have hfail := hd _ _ _ (.fail (readMoreStep_eof X S F _))
      rw [List.append_nil] at hfail
      exact ⟨some EOF, _, ⟨blocks, hfail, hblocks.symm⟩, .inr rfl⟩
    · have hoverruns : Overruns X S (reading none (bytes ++ more) 0) (content ++ F.content) := by
        by_cases hfits : 0 + content.length ≤ S.maxOutput
        · exact (hreach hfits).overruns (hlong hfits (by omega))
        · exact (hover (Nat.zero_le _) (by omega)).append _
      obtain ⟨blocks, f, n, hpre, -, -, -, hd⟩ := hoverruns
      exact ⟨_, f, n, hpre, blocks, hd, rfl⟩

/-- A part of bytes gives a part of what all of them give: then the file ends, or the frames
do, or all was there. -/
theorem Left.part {part D : List UInt8} {o : Option Error} {f : Naive (List UInt8)}
    (h : Left X S (Naive.start bytes) D o f) (hpart : part <+: bytes) :
    ∃ D' o' f', Left X S (Naive.start part) D' o' f' ∧ D' <+: D ∧ (o' = some EOF ∨ o' = none ∨ o' = o) := by
  obtain ⟨blocks, hd, rfl⟩ := h
  obtain ⟨blocks', o', f', hd', hpre, ho⟩ := hd.cutShort (s := Naive.start part) ⟨hpart, rfl, rfl, rfl⟩ rfl
  exact ⟨_, o', f', ⟨blocks', hd', rfl⟩, flatten_prefix hpre, ho⟩

end

/-! ## What is sent -/

variable {X : XxHash32} {t : Target} {e : FrameEncoder X} {w : Writer} {info : FrameInfo} {dict : List UInt8}
  {p : Progress}

/-- All that calls have come to. -/
def total (p : Progress) : List UInt8 := p.ended.flatten ++ p.opened

/-- What a writer has taken is frames, up to an open one, with a part of `content`. -/
def Sends (X : XxHash32) (info : FrameInfo) (dict content : List UInt8) (w w' : Writer) : Prop :=
  ∃ held bytes, held <+: content ∧ Unfinished X dict info.dictId held bytes ∧ w'.accepted = w.accepted ++ bytes

theorem Sends.mono {content more : List UInt8} {w' : Writer} (h : Sends X info dict content w w')
    (hpre : content <+: more) : Sends X info dict more w w' := by
  obtain ⟨held, bytes, hheld, hopen, hsent⟩ := h
  exact ⟨held, bytes, hheld.trans hpre, hopen, hsent⟩

theorem Resting.sends {first : Bool} {ended : List (List UInt8)}
    (h : Resting info dict first ended w e) : Sends X info dict ended.flatten w e.w := by
  obtain ⟨bytes, hstream, hsent⟩ := h.sent
  exact ⟨_, bytes, List.prefix_refl _, .ended hstream.text, hsent.accepted⟩

theorem Live.sends {first : Bool} {ended : List (List UInt8)} {f : Frame}
    (h : Live info dict first ended w f e) : Sends X info dict (ended.flatten ++ f.content) w e.w := by
  obtain ⟨bytes, more, hstream, hframe, hsent⟩ := h.sent
  have hid : f.info.dictId = info.dictId := by rw [h.info_eq]
  exact ⟨_, bytes ++ more, List.prefix_refl _, .opened hstream.text hframe.text hid, hsent.accepted⟩

theorem Session.sends (h : Session info dict p w e) : Sends X info dict (total p) w e.w := by
  rcases h.state with ⟨hnil, hr⟩ | ⟨-, f, hl, hopened⟩
  · exact hr.sends.mono (List.prefix_append _ _)
  · refine hl.sends.mono ?_
    rw [total, ← hopened]
    exact (List.prefix_append_right_inj _).mpr (List.prefix_append _ _)

/-- A frame that does not end because of its length: nothing is sent for it. -/
theorem endFrame_refused {first : Bool} {ended : List (List UInt8)} {f : Frame}
    (h : Live info dict first ended w f e) (hf : e.failed = true) (hw : Reliable w) :
    Proc.WP (fun _ _ => True) (fun _ e' => e'.w = e.w) (endFrame e) := by
  have habsurd {err : Error} {e₁ : FrameEncoder X} (he : Failed w err e₁) : e₁.w = e.w := absurd hw he.2
  unfold endFrame
  rw [Proc.bind_run, Proc.get_run, Run.ret_bind, Proc.andThen_ok, Proc.bind_run, Proc.lift_run,
    Run.assert, if_pos h.begun.isOpen, Run.ret_bind, Run.ret_bind, Proc.andThen_ok]
  refine Proc.WP.bind (Proc.WP_ofExcept (Q := fun _ e' => e' = e) (fun _ _ => rfl) fun _ _ => rfl)
    fun _ e₁ he₁ => ?_
  subst he₁
  rw [Proc.bind_run, BlockInfo.write, Proc.ofExcept_run, Run.ret_bind, Proc.andThen_ok]
  refine Proc.WP.bind ((writeAll_ok e₁ _).mono (fun _ _ hq => hq) fun err _ he =>
    habsurd (h.faulty hf he err)) fun _ e₂ h₂ => ?_
  have hrest (e₃ : FrameEncoder X) : Proc.WP (fun _ _ => True) (fun _ e' => e'.w = e₁.w)
      ((Proc.modify fun e => { e with isFrameOpen := false } : Encode X Unit) e₃) := trivial
  by_cases hc : e₁.frameInfo.contentChecksum = true
  · simp only [hc, if_true]
    exact Proc.WP.bind ((h₂.then (writeAll_ok e₂ _)).mono (fun _ _ hq => hq) fun err _ he =>
      habsurd (h.faulty hf he err)) fun _ e₃ _ => hrest e₃
  · rw [if_neg hc]
    exact hrest e₂

/-- What there is of a frame that may not end. -/
theorem finishRest_refused {first : Bool} {ended : List (List UInt8)} {f : Frame}
    (h : Live info dict first ended w f e) (hf : e.failed = true) (hw : Reliable w) {content : List UInt8}
    (hpre : ended.flatten ++ opened f e <+: content) :
    Proc.WP (fun _ _ => True) (fun _ e' => Sends X info dict content w e'.w)
      ((do
        endFrame
        Proc.modify fun e => { e with dataToFrameWritten := true, failed := false } :
          Encode X Unit) e) := by
  refine Proc.WP.bind ((endFrame_refused h hf hw).mono (fun _ _ hq => hq) fun _ e' he => ?_)
    fun _ e' _ => (trivial : True)
  rw [he]
  exact h.sends.mono (((List.prefix_append_right_inj _).mpr (List.prefix_append _ _)).trans hpre)

theorem tryFinish_refused (t : Target) (hw : Reliable w) (h : Session info dict p w e) :
    Proc.Safe (2 ^ 64 ≤ p.opened.length) (fun _ _ => True)
      (fun _ e' => Sends X info dict (total p) w e'.w) (FrameEncoder.tryFinish t e) := by
  have habsurd {err : Error} {e₁ : FrameEncoder X} (he : Failed w err e₁) :
      Sends X info dict (total p) w e₁.w := absurd hw he.2
  unfold FrameEncoder.tryFinish
  refine Proc.Safe.bind ((flush_session t h).mono id (fun _ _ hq => hq) fun _ _ he => habsurd he)
    fun _ e₁ he₁ => ?_
  obtain ⟨⟨hfine, hstate⟩, hidle⟩ := he₁
  rw [Proc.bind_run, Proc.get_run, Run.ret_bind, Proc.andThen_ok, Proc.ite_run]
  by_cases hdone : e₁.isFrameOpen = false ∧ e₁.dataToFrameWritten = true
  · rw [if_pos hdone]
    exact .inl trivial
  rw [if_neg hdone, Proc.bind_run, Proc.modify_run, Run.ret_bind, Proc.andThen_ok, Proc.ite_run]
  rcases hstate with ⟨hnil, hr⟩ | ⟨hne, f, hl, hopened⟩
  · rw [if_pos (show _ = false from hr.rests.closed)]
    refine Proc.Safe.bind (((hr.failed true).beginFrame_ok t rfl 0).mono (fun _ _ hq => hq)
      fun _ _ he => habsurd he).safe fun _ e₂ he₂ => ?_
    obtain ⟨hfailed, f, hl, hopened⟩ := he₂
    exact (finishRest_refused hl hfailed hw (by rw [hopened, total, hnil])).safe
  · rw [if_neg (fun hc => by rw [show _ = true from hl.begun.isOpen] at hc; cases hc)]
    exact (finishRest_refused (hl.failed true) rfl hw (by rw [total, ← hopened]; exact List.prefix_refl _)).safe

/-- A call that returns no number fails as what it calls does. -/
theorem error_of_call {x : Encode X Unit} {err : Error} {e' : FrameEncoder X}
    (h : (do
      x
      return 0 : Encode X Nat) e = .ret (.error err, e')) : x e = .ret (.error err, e') := by
  obtain ⟨⟨r, e₁⟩, hx, hret⟩ := Run.bind_eq_ret.mp h
  cases r with
  | ok u => cases hret
  | error err' =>
    obtain ⟨herr, rfl⟩ := Prod.mk.inj (Run.ret.inj hret)
    obtain rfl := Except.error.inj herr
    exact hx

/-- Calls over a writer that never fails. -/
theorem encoderRun_sends (t : Target) (hw : Reliable w) : ∀ (cs : List EncoderCall) {p : Progress}
    {e e₁ : FrameEncoder X} {rs : List (Except Error Nat)}, Session info dict p w e →
    encoderRun t e cs = .ret (rs, e₁) →
    Sends X info dict (total p ++ (cs.map EncoderCall.bytes).flatten) w e₁.w
  | [], p, e, e₁, rs, h, hrun => by
    obtain ⟨-, rfl⟩ := Prod.mk.inj (Run.ret.inj hrun)
    rw [List.map_nil, List.flatten_nil, List.append_nil]
    exact h.sends
  | c :: cs, p, e, e₁, rs, h, hrun => by
    rw [encoderRun_cons] at hrun
    obtain ⟨⟨r, e₂⟩, hc, hrun⟩ := Run.bind_eq_ret.mp hrun
    obtain ⟨⟨rs', e₃⟩, hcs, hrun⟩ := Run.bind_eq_ret.mp hrun
    obtain ⟨-, rfl⟩ := Prod.mk.inj (Run.ret.inj hrun)
    have hsafe := (encoderCall_ok t h c).of_ret hc
    cases r with
    | ok n =>
      have hrest := encoderRun_sends t hw cs hsafe.2 hcs
      rwa [total, step_content, List.append_assoc, ← List.flatten_cons] at hrest
    | error err =>
      rw [encoderRun_failed t (h.failed t hc)] at hcs
      obtain ⟨-, rfl⟩ := Prod.mk.inj (Run.ret.inj hcs)
      refine Sends.mono ?_ (List.prefix_append _ _)
      cases c with
      | write buf => exact absurd hw ((write_session t h buf).of_ret hc).2
      | flush => exact absurd hw ((flush_session t h).of_ret (error_of_call hc)).2
      | tryFinish => exact (tryFinish_refused t hw h).of_ret (error_of_call hc)

theorem not_outgrows {cs : List EncoderCall} (h : (cs.map EncoderCall.bytes).flatten.length < 2 ^ 64) :
    ¬ Outgrows .start cs := fun ⟨cs', ⟨rest, hrest⟩, hlen⟩ => by
  have hcontent := congrArg List.length (foldl_content cs' .start)
  simp only [← hrest, List.map_append, List.flatten_append, List.length_append, Progress.start,
    List.flatten_nil, List.length_nil, Nat.zero_add] at h hcontent hlen
  omega

/-- Calls over any writer. -/
theorem encoderRun_taken (t : Target) (he : Created X w e) {cs : List EncoderCall}
    (hlen : (cs.map EncoderCall.bytes).flatten.length < 2 ^ 64) {rs : List (Except Error Nat)}
    {e₁ : FrameEncoder X} (hrun : encoderRun t e cs = .ret (rs, e₁)) :
    ∃ held bytes part, held <+: (cs.map EncoderCall.bytes).flatten ∧
      Unfinished X e.dict e.frameInfo.dictId held bytes ∧ part <+: bytes ∧
      e₁.w.accepted = w.accepted ++ part := by
  -- The same calls over a writer that has taken as much, and never fails.
  let v : Writer := ⟨w.accepted, [], []⟩
  have hv : Reliable v := ⟨by simp [v], by simp [v]⟩
  obtain ⟨hw, he'⟩ := created_writer he v
  obtain ⟨⟨rs', e₁'⟩, hrun', -⟩ :=
    Run.WP_iff.mp ((encoderRun_ok t cs (created_session he')).resolve_left fun h => not_outgrows hlen h.2)
  have ht : Twin w v True e { e with w := v } :=
    ⟨⟨_, _, _, _, rfl⟩, fun _ => rfl, fun _ => rfl, [], hw ▸ .refl _, .refl v⟩
  have hpre := accepted_prefix (w := w) (v := v) rfl (encoderRun_tandem hv t cs (created_session he) ht (.inl trivial)) hrun hrun'
  obtain ⟨held, bytes, hheld, hframes, hsent⟩ := encoderRun_sends t hv cs (created_session he') hrun'
  obtain ⟨part, hpart⟩ := (encoderRun_onward hv t cs hrun).accepted
  rw [hw] at hpart
  refine ⟨held, bytes, part, hheld, hframes, ?_, hpart.symm⟩
  rw [← hpart, hsent] at hpre
  exact (List.prefix_append_right_inj _).mp hpre

/-- A decoder with the dictionary of `e` gives a part of `content` for what `w'` has taken since
`w`, and comes to the end of the frames or of the file, or to its limit. -/
def GivesPart (X : XxHash32) (t : Target) (e : FrameEncoder X) (maxOutput : Option Nat) (content : List UInt8)
    (w w' : Writer) : Prop :=
  ∃ bytes D o, w'.accepted = w.accepted ++ bytes ∧ D <+: content ∧
    Outcome X t (decoderOptions e maxOutput) bytes D o ∧
    (o = none ∨ o = some EOF ∨ ∃ n, o = some (.decompressedSizeLimit (maxOutput.getD t.usizeMax) n) ∧
      maxOutput.getD t.usizeMax < content.length)

theorem givesPart_of_unfinished (hX : Spec.Lawful X) {t' : Target} (he : Created X w e) {maxOutput : Option Nat}
    (hmax : Limited t' (decoderOptions e maxOutput)) {content held bytes part : List UInt8} {w' : Writer}
    (hheld : held <+: content) (hframes : Unfinished X e.dict e.frameInfo.dictId held bytes)
    (hpart : part <+: bytes) (hsent : w'.accepted = w.accepted ++ part) :
    GivesPart X t' e maxOutput content w w' := by
  obtain ⟨hdict, hid, hlimit⟩ := settings_decoderOptions t' he maxOutput
  rw [← hdict, ← hid] at hframes
  obtain ⟨hall, hover⟩ := hframes.left hX hmax
  rw [hlimit] at hall hover
  by_cases hfits : held.length ≤ maxOutput.getD t'.usizeMax
  · obtain ⟨o, f, hleft, ho⟩ := hall hfits
    obtain ⟨D, o', f', hleft', hD, ho'⟩ := hleft.part hpart
    refine ⟨part, D, o', hsent, hD.trans hheld, hleft'.outcome, ?_⟩
    rcases ho' with rfl | rfl | rfl
    · exact .inr (.inl rfl)
    · exact .inl rfl
    · exact ho.imp_right .inl
  · obtain ⟨D₁, f, n, hD₁, hleft⟩ := hover (Nat.lt_of_not_le hfits)
    obtain ⟨D, o', f', hleft', hD, ho'⟩ := hleft.part hpart
    refine ⟨part, D, o', hsent, (hD.trans hD₁).trans hheld, hleft'.outcome, ?_⟩
    rcases ho' with rfl | rfl | rfl
    · exact .inr (.inl rfl)
    · exact .inl rfl
    · refine .inr (.inr ⟨min n t'.usizeMax, ?_, Nat.lt_of_lt_of_le (Nat.lt_of_not_le hfits) hheld.length_le⟩)
      rw [Exceeded, Exceeds, hlimit, settings_target]

/-- Whatever the writer does, and whichever calls fail: a decoder of what the writer has taken
gives nothing but a part of what was written; so it does when the wrapper that `auto_finish`
gives is dropped. -/
theorem encoderRun_part (hX : Spec.Lawful X) (t t' : Target) (he : Created X w e) {maxOutput : Option Nat}
    (hmax : Limited t' (decoderOptions e maxOutput)) :
    (∀ (cs : List EncoderCall) rs e₁, (cs.map EncoderCall.bytes).flatten.length < 2 ^ 64 →
      encoderRun t e cs = .ret (rs, e₁) →
      GivesPart X t' e maxOutput (cs.map EncoderCall.bytes).flatten w e₁.w) ∧
    ∀ (cs : List WriteCall) u, (cs.map fun c => c.toEncoder.bytes).flatten.length < 2 ^ 64 →
      autoDrop t e cs = .ret (some u) →
      GivesPart X t' e maxOutput (cs.map fun c => c.toEncoder.bytes).flatten w u := by
  refine ⟨fun cs rs e₁ hlen hrun => ?_, fun cs u hlen hdrop => ?_⟩
  · obtain ⟨held, bytes, part, hheld, hframes, hpart, hsent⟩ := encoderRun_taken t he hlen hrun
    exact givesPart_of_unfinished hX he hmax hheld hframes hpart hsent
  · have hbytes : ((cs.map WriteCall.toEncoder ++ [EncoderCall.tryFinish]).map EncoderCall.bytes).flatten =
        (cs.map fun c => c.toEncoder.bytes).flatten := by
      rw [List.map_append, List.map_map, List.flatten_append]
      exact List.append_nil _
    rw [autoDrop_eq] at hdrop
    obtain ⟨⟨rs, e₁⟩, hrun, hu⟩ := Run.bind_eq_ret.mp hdrop
    obtain rfl := Option.some.inj (Run.ret.inj hu)
    obtain ⟨held, bytes, part, hheld, hframes, hpart, hsent⟩ := encoderRun_taken t he (by rwa [hbytes]) hrun
    rw [hbytes] at hheld
    exact givesPart_of_unfinished hX he hmax hheld hframes hpart hsent

/-- A writer that is full after three bytes. -/
theorem encoderRun_part_full :
    let t : Target := ⟨.w64, false, false⟩
    let w : Writer := ⟨[], [.accept 3, .fail ⟨.other, "full"⟩], []⟩
    ∃ e e₁ : FrameEncoder Spec.xxHash32, ∃ rs, Created Spec.xxHash32 w e ∧
      encoderRun t e [.write [1, 2, 3], .flush] = .ret (rs, e₁) ∧
      GivesPart Spec.xxHash32 t e none [1, 2, 3] w e₁.w := by
  intro t w
  obtain ⟨e, hnew⟩ : ∃ e, FrameEncoder.new Spec.xxHash32 w = .ret e := ⟨_, rfl⟩
  have he : Created Spec.xxHash32 w e := .new hnew
  have hlen : (([.write [1, 2, 3], .flush] : List EncoderCall).map EncoderCall.bytes).flatten.length < 2 ^ 64 := by
    decide
  obtain ⟨⟨rs, e₁⟩, hrun, -⟩ := Run.WP_iff.mp ((encoderRun_ok t [.write [1, 2, 3], .flush]
    (created_session he)).resolve_left fun h => not_outgrows hlen h.2)
  have hmax : Limited t (decoderOptions e none) := by
    rw [Limited, (settings_decoderOptions t he none).2.2]
    decide
  exact ⟨e, e₁, rs, he, hrun, (encoderRun_part Spec.xxHash32_lawful t t he hmax).1 _ _ _ hlen hrun⟩

/-! ## Flushing -/

/-- The frames that are sent have all but what waits for its block. -/
theorem Session.behind (h : Session info dict p w e) :
    ∃ bytes sent held, Unfinished X dict info.dictId sent bytes ∧ e.w.accepted = w.accepted ++ bytes ∧
      sent ++ held = total p ∧ held.length = e.srcEnd - e.srcStart ∧
      held.length ≤ blockLimit e.frameInfo.blockSize := by
  rcases h.state with ⟨hnil, hr⟩ | ⟨-, f, hl, hopened⟩
  · obtain ⟨bytes, hstream, hsent⟩ := hr.sent
    have hidle : e.srcStart = e.srcEnd := hr.rests.idle
    refine ⟨bytes, _, [], .ended hstream.text, hsent.accepted, by rw [total, hnil], ?_, Nat.zero_le _⟩
    rw [hidle, Nat.sub_self, List.length_nil]
  · obtain ⟨bytes, more, hstream, hframe, hsent⟩ := hl.sent
    have hpl : (sourceOf e).pending.length = e.srcEnd - e.srcStart := hl.begun.source.length_pending
    have hfilled : e.srcEnd ≤ e.srcStart + blockLimit f.info.blockSize := hl.begun.source.filled
    have hid : f.info.dictId = info.dictId := by rw [hl.info_eq]
    refine ⟨bytes ++ more, _, (sourceOf e).pending, .opened hstream.text hframe.text hid, hsent.accepted, ?_, hpl, ?_⟩
    · rw [total, ← hopened, opened, List.append_assoc]
    · rw [hpl, hl.begun.info]
      omega

/-- After a `flush` that succeeds, a decoder of what the writer has taken gives all that was
written. -/
theorem flush_delivers (hX : Spec.Lawful X) (t t' : Target) (he : Created X w e) {cs : List EncoderCall}
    {rs : List (Except Error Nat)} {e₁ e₂ : FrameEncoder X} (hrun : encoderRun t e cs = .ret (rs, e₁))
    (hflush : FrameEncoder.flush t e₁ = .ret (.ok (), e₂)) {maxOutput : Option Nat}
    (hmax : Limited t' (decoderOptions e maxOutput))
    (hlen : (cs.map EncoderCall.bytes).flatten.length ≤ maxOutput.getD t'.usizeMax) :
    ∃ bytes o, e₂.w.accepted = w.accepted ++ bytes ∧
      Outcome X t' (decoderOptions e maxOutput) bytes (cs.map EncoderCall.bytes).flatten o ∧
      (o = none ∨ o = some EOF) := by
  rcases encoderRun_ok t cs (created_session he) with ⟨hpanic, -⟩ | hran
  · cases hrun.symm.trans hpanic
  rw [hrun] at hran
  cases (hran : Ran _ _ _ _ _ _) with
  | ok hs =>
    obtain ⟨hs, hidle⟩ := (flush_session t hs).of_ret hflush
    obtain ⟨bytes, sent, held, hframes, hsent, hall, hheld, -⟩ := hs.behind
    have hnil : held = [] := List.eq_nil_of_length_eq_zero (by rw [hheld, hidle, Nat.sub_self])
    obtain ⟨hdict, hid, hlimit⟩ := settings_decoderOptions t' he maxOutput
    have hcontent : total (cs.foldl Progress.step .start) = (cs.map EncoderCall.bytes).flatten :=
      foldl_content cs .start
    rw [hcontent, hnil, List.append_nil] at hall
    rw [← hdict, ← hid, hall] at hframes
    obtain ⟨o, f, hleft, ho⟩ := (hframes.left hX hmax).1 (by rwa [hlimit])
    exact ⟨bytes, o, hsent, hleft.outcome, ho⟩
  | failed hf _ =>
    have hcall := error_of_call (encoderCall_failed t hf .flush)
    cases hflush.symm.trans hcall

/-- A writer that first takes three bytes, and then all. -/
theorem flush_delivers_three :
    let t : Target := ⟨.w64, false, false⟩
    let w : Writer := ⟨[], [.accept 3], []⟩
    ∃ e e₁ e₂ : FrameEncoder Spec.xxHash32, ∃ rs bytes o, Created Spec.xxHash32 w e ∧
      encoderRun t e [.write [1, 2, 3]] = .ret (rs, e₁) ∧ FrameEncoder.flush t e₁ = .ret (.ok (), e₂) ∧
      e₂.w.accepted = bytes ∧ Outcome Spec.xxHash32 t (decoderOptions e none) bytes [1, 2, 3] o := by
  intro t w
  obtain ⟨e, hnew⟩ : ∃ e, FrameEncoder.new Spec.xxHash32 w = .ret e := ⟨_, rfl⟩
  have hcalls : (encoderRun t e [.write [1, 2, 3]] >>= fun p => FrameEncoder.flush t p.2 >>= fun q =>
      .ret q.1) = .ret (.ok ()) := by
    obtain rfl := Run.ret.inj hnew
    decide +kernel
  obtain ⟨⟨rs, e₁⟩, hrun, hcalls⟩ := Run.bind_eq_ret.mp hcalls
  obtain ⟨⟨r, e₂⟩, hflush, hr⟩ := Run.bind_eq_ret.mp hcalls
  obtain rfl := Run.ret.inj hr
  have hmax : Limited t (decoderOptions e none) := by
    rw [Limited, (settings_decoderOptions t (.new hnew) none).2.2]
    decide
  obtain ⟨bytes, o, hsent, houtcome, -⟩ :=
    flush_delivers Spec.xxHash32_lawful t t (.new hnew) hrun hflush hmax (by decide)
  exact ⟨e, e₁, e₂, rs, bytes, o, .new hnew, hrun, hflush, hsent, houtcome⟩

/-! ## What waits -/

/-- An encoder keeps back one block at most: as long as no call fails, a decoder of what the
writer has taken gives all but the last bytes that were written. -/
theorem encoderRun_lag (hX : Spec.Lawful X) (t t' : Target) (he : Created X w e) {cs : List EncoderCall}
    {rs : List (Except Error Nat)} {e₁ : FrameEncoder X} (hrun : encoderRun t e cs = .ret (rs, e₁))
    (hfine : e₁.failed = false) {maxOutput : Option Nat} (hmax : Limited t' (decoderOptions e maxOutput))
    (hlen : (cs.map EncoderCall.bytes).flatten.length ≤ maxOutput.getD t'.usizeMax) :
    ∃ bytes D held o, e₁.w.accepted = w.accepted ++ bytes ∧ D ++ held = (cs.map EncoderCall.bytes).flatten ∧
      held.length ≤ blockLimit e₁.frameInfo.blockSize ∧
      Outcome X t' (decoderOptions e maxOutput) bytes D o ∧ (o = none ∨ o = some EOF) := by
  rcases encoderRun_ok t cs (created_session he) with ⟨hpanic, -⟩ | hran
  · cases hrun.symm.trans hpanic
  rw [hrun] at hran
  cases (hran : Ran _ _ _ _ _ _) with
  | ok hs =>
    obtain ⟨bytes, D, held, hframes, hsent, hall, -, hheld⟩ := hs.behind
    obtain ⟨hdict, hid, hlimit⟩ := settings_decoderOptions t' he maxOutput
    have hcontent : total (cs.foldl Progress.step .start) = (cs.map EncoderCall.bytes).flatten :=
      foldl_content cs .start
    rw [hcontent] at hall
    rw [← hall, List.length_append] at hlen
    rw [← hdict, ← hid] at hframes
    obtain ⟨o, f, hleft, ho⟩ := (hframes.left hX hmax).1 (by rw [hlimit]; omega)
    exact ⟨bytes, D, held, o, hsent, hall, hheld, hleft.outcome, ho⟩
  | failed hf _ => exact absurd (hfine.symm.trans hf) Bool.false_ne_true

/-- Nothing of three bytes is sent before there is a `flush`. -/
theorem encoderRun_lag_three :
    let t : Target := ⟨.w64, false, false⟩
    let w : Writer := ⟨[], [], []⟩
    ∃ e e₁ : FrameEncoder Spec.xxHash32, ∃ rs bytes D held o, Created Spec.xxHash32 w e ∧
      encoderRun t e [.write [1, 2, 3]] = .ret (rs, e₁) ∧ e₁.w.accepted = bytes ∧ D ++ held = [1, 2, 3] ∧
      held.length ≤ blockLimit e₁.frameInfo.blockSize ∧
      Outcome Spec.xxHash32 t (decoderOptions e none) bytes D o := by
  intro t w
  obtain ⟨e, hnew⟩ : ∃ e, FrameEncoder.new Spec.xxHash32 w = .ret e := ⟨_, rfl⟩
  have hcalls : (encoderRun t e [.write [1, 2, 3]] >>= fun p => .ret p.2.failed) = .ret false := by
    obtain rfl := Run.ret.inj hnew
    decide +kernel
  obtain ⟨⟨rs, e₁⟩, hrun, hfine⟩ := Run.bind_eq_ret.mp hcalls
  have hmax : Limited t (decoderOptions e none) := by
    rw [Limited, (settings_decoderOptions t (.new hnew) none).2.2]
    decide
  obtain ⟨bytes, D, held, o, hsent, hall, hheld, houtcome, -⟩ :=
    encoderRun_lag Spec.xxHash32_lawful t t (.new hnew) hrun (Run.ret.inj hfine) hmax (by decide)
  exact ⟨e, e₁, rs, bytes, D, held, o, .new hnew, hrun, hsent, hall, hheld, houtcome⟩

end Lz4rip.Proof.Frame
