import Lz4rip.Proof.Frame.Split

/-!
# What a frame's bytes depend on

An encoder that begins a frame is, but for its writer, its output buffer and what no
block of the frame looks at, like any other that begins a frame with the same header
and dictionary (`Begins.twin`). So a frame with something in it has the same bytes as
the first frame of a new encoder (`Poised.run`), and only the data between its flushes
counts (`encoderRun_afresh`).
-/

namespace Lz4rip.Proof.Frame

open Lz4rip.Impl
open Lz4rip.Impl.FrameEncoder
open Spec (Created EncoderCall Frame Progress WriteCall encoderCall encoderRun)

variable {X : XxHash32} {f : Frame} {e e' : FrameEncoder X} {info : FrameInfo} {dict : List UInt8}
  {p p' : Progress} {w v w₀ v₀ : Writer}

/-! ## The beginning of a frame -/

theorem Begins.twin {e₁ e₁' : FrameEncoder X} (h : Begins info e e₁) (h' : Begins info e' e₁')
    (hd : e.dict = e'.dict) (hf : e.failed = e'.failed)
    (hs : ∃ bytes, Sent w bytes e.w ∧ Sent v bytes e'.w) : Twin w v False e₁ e₁' := by
  obtain ⟨bytes, hw, hv⟩ := hs
  have hsrc : e₁.src = e₁'.src := by
    have hdata : e₁.src.data = e₁'.src.data := h.pristine.data.trans h'.pristine.data.symm
    have hcap : e₁.src.capacity = e₁'.src.capacity :=
      h.begun.source.capacity.trans h'.begun.source.capacity.symm
    show Vec.mk e₁.src.data e₁.src.capacity = _
    rw [hdata, hcap]
  have hdict : e₁.dict = e₁'.dict := h.keeps.dict.trans (hd.trans h'.keeps.dict.symm)
  have hfailed : e₁.failed = e₁'.failed := h.keeps.failed.trans (hf.trans h'.keeps.failed.symm)
  have hextLen : e₁.extDictLen = e₁'.extDictLen := h.pristine.extLen.trans h'.pristine.extLen.symm
  refine ⟨⟨e₁'.dst, e₁'.w, e₁'.extDictOffset, e₁'.dataToFrameWritten, ?_⟩,
    fun hne => absurd h.pristine.extLen hne, False.elim, _, hw.trans h.sent, hv.trans h'.sent⟩
  rw [hsrc, hdict, hfailed, hextLen, h.pristine.start.trans h'.pristine.start.symm,
    h.pristine.stop.trans h'.pristine.stop.symm, h.pristine.offset.trans h'.pristine.offset.symm,
    h.pristine.table.trans h'.pristine.table.symm, h.pristine.len.trans h'.pristine.len.symm,
    h.pristine.hasher.trans h'.pristine.hasher.symm, h.begun.info.trans h'.begun.info.symm,
    h.begun.isOpen.trans h'.begun.isOpen.symm]

theorem Session.resting (h : Session info dict p w e) (hp : p.opened = []) :
    Resting info dict p.first p.ended w e := by
  rcases h.state with ⟨-, hr⟩ | ⟨hne, -⟩
  · exact hr
  · exact absurd hp hne

theorem Resting.reliable {first : Bool} {ended : List (List UInt8)}
    (h : Resting info dict first ended w e) (hw : Reliable w) : Reliable e.w := by
  obtain ⟨bytes, -, hs⟩ := h.sent
  exact hs.reliable hw

/-- A frame begins, if the writer never fails. -/
theorem Session.begins (t : Target) (h : Session info dict p w e) (hp : p.opened = []) (hw : Reliable w)
    (bufLen : Nat) :
    ∃ e₁, beginFrame t bufLen { e with failed := true } = .ret (.ok (), e₁) ∧
      Begins (resolve e.frameInfo bufLen) { e with failed := true } e₁ := by
  have hr := (h.resting hp).failed true
  rcases Proc.WP_iff.mp (beginFrame_ok t hr.rests bufLen) with ⟨_, e₁, hx, hb⟩ | ⟨err, e₁, -, hf⟩
  · exact ⟨e₁, hx, hb⟩
  · exact absurd (hr.reliable hw) hf.2

/-- Between frames a flush reaches the writer only. -/
theorem Session.flush_resting (t : Target) (h : Session info dict p w e) (hp : p.opened = [])
    (hw : Reliable w) :
    ∃ u, Sent e.w [] u ∧ encoderCall t .flush e = .ret (.ok 0, { e with w := u }) ∧
      Session info dict p w { e with w := u } := by
  have hr := h.resting hp
  have hne : ¬ e.failed = true := by
    rw [h.fine]
    decide
  rcases Proc.WP_iff.mp (flushWriter_ok { e with failed := true }) with
    ⟨_, e₁, hx, u, hs, rfl⟩ | ⟨err, e₁, -, hf⟩
  · have hsame : { e with w := u, failed := false } = { e with w := u } := by rw [← h.fine]
    refine ⟨u, hs, ?_, h.fine, .inl ⟨hp, hr.writer hs⟩⟩
    rw [encoderCall, Proc.bind_run, FrameEncoder.flush, Proc.bind_run, Proc.get_run, Run.ret_bind,
      Proc.andThen_ok, Proc.ite_run, if_neg hne, Proc.bind_run, Proc.modify_run, Run.ret_bind,
      Proc.andThen_ok, if_neg (not_not.mpr hr.rests.idle)]
    beta_reduce
    rw [Proc.bind_run, hx, Run.ret_bind, Proc.andThen_ok, Proc.modify_run, Run.ret_bind,
      Proc.andThen_ok, Proc.pure_run, ← hsame]
  · exact absurd (hr.reliable hw) hf.2

/-! ## A frame next to another -/

/-- Two encoders between frames, which have come to the same from the writers `w` and
`v` on. -/
structure Poised (info : FrameInfo) (dict : List UInt8) (w₀ v₀ w v : Writer) (p p' : Progress)
    (e e' : FrameEncoder X) : Prop where
  left : Session info dict p w₀ e
  right : Session info dict p' v₀ e'
  opened : p.opened = []
  opened' : p'.opened = []
  info_eq : e.frameInfo = e'.frameInfo
  sent : Sent w [] e.w
  sent' : Sent v [] e'.w

theorem Fills.of_opened : ∀ (cs : List WriteCall) {p : Progress}, p.opened ≠ [] →
    Fills p (cs.map WriteCall.toEncoder ++ [.tryFinish])
  | [], p, h => ⟨fun _ => h, trivial⟩
  | .write a :: cs, p, h => by
    refine ⟨fun hc => ?_, Fills.of_opened cs fun hnil => h (List.append_eq_nil_iff.mp hnil).1⟩
    cases hc
  | .flush :: cs, p, h => by
    refine ⟨fun hc => ?_, Fills.of_opened cs h⟩
    cases hc

/-- A frame with something in it, written by both. -/
theorem Poised.run (hw₀ : Reliable w₀) (hv₀ : Reliable v₀) (hv : Reliable v) (t : Target) :
    ∀ (cs : List WriteCall) {e e' : FrameEncoder X}, Poised info dict w₀ v₀ w v p p' e e' →
      (WriteCall.segments cs).flatten ≠ [] →
      Coupled w v False (encoderRun t e (cs.map WriteCall.toEncoder ++ [.tryFinish]))
        (encoderRun t e' (cs.map WriteCall.toEncoder ++ [.tryFinish]))
  | [], e, e', h, hne => absurd rfl hne
  | .flush :: cs, e, e', h, hne => by
    obtain ⟨u, hs, hx, hu⟩ := h.left.flush_resting t h.opened hw₀
    obtain ⟨u', hs', hx', hu'⟩ := h.right.flush_resting t h.opened' hv₀
    have hnext : Poised info dict w₀ v₀ w v p p' { e with w := u } { e' with w := u' } :=
      ⟨hu, hu', h.opened, h.opened', h.info_eq, h.sent.trans hs, h.sent'.trans hs'⟩
    show Coupled w v False (encoderRun t e (.flush :: (cs.map WriteCall.toEncoder ++ [.tryFinish])))
      (encoderRun t e' (.flush :: (cs.map WriteCall.toEncoder ++ [.tryFinish])))
    rw [encoderRun_cons, encoderRun_cons, hx, hx']
    exact (Poised.run hw₀ hv₀ hv t cs hnext hne).cons (.ok 0)
  | .write a :: cs, e, e', h, hne => by
    show Coupled w v False (encoderRun t e (.write a :: (cs.map WriteCall.toEncoder ++ [.tryFinish])))
      (encoderRun t e' (.write a :: (cs.map WriteCall.toEncoder ++ [.tryFinish])))
    rw [flatten_segments_write] at hne
    by_cases ha : a = []
    · subst ha
      have hx : encoderCall t (.write []) e = .ret (.ok 0, e) := write_nil t h.left.fine
      have hx' : encoderCall t (.write []) e' = .ret (.ok 0, e') := write_nil t h.right.fine
      rw [encoderRun_cons, encoderRun_cons, hx, hx']
      exact (Poised.run hw₀ hv₀ hv t cs h hne).cons (.ok 0)
    · have hr := h.left.resting h.opened
      have hr' := h.right.resting h.opened'
      obtain ⟨e₁, hx, hb⟩ := h.left.begins t h.opened hw₀ a.length
      obtain ⟨e₁', hx', hb'⟩ := h.right.begins t h.opened' hv₀ a.length
      obtain ⟨hl, hopened⟩ := (hr.failed true).begin hb
      rw [← h.info_eq] at hb'
      have ht := hb.twin hb' (hr.dict_eq.trans hr'.dict_eq.symm) rfl ⟨[], h.sent, h.sent'⟩
      have hwriting : Writing info dict p.first p.ended w₀ a a e₁ :=
        ⟨hb.keeps.failed, _, hl, by rw [hopened, List.nil_append]⟩
      have hcall : encoderCall t (.write a) e = writeRest t a e₁ := by
        show FrameEncoder.write t a e = _
        rw [write_begin t h.left.fine hr.rests.closed ha, hx, Run.ret_bind, Proc.andThen_ok]
      have hcall' : encoderCall t (.write a) e' = writeRest t a e₁' := by
        show FrameEncoder.write t a e' = _
        rw [write_begin t h.right.fine hr'.rests.closed ha, hx', Run.ret_bind, Proc.andThen_ok]
      have hstep := writeRest_tandem hv t (.inr hwriting) ht
      rw [← hcall, ← hcall'] at hstep
      refine Coupled.call hv t h.left hstep fun hs₂ ht₂ => encoderRun_tandem hv t _ hs₂ ht₂ (.inr ?_)
      exact Fills.of_opened cs fun hnil => ha (List.append_eq_nil_iff.mp hnil).2

/-! ## A frame of a new encoder -/

/-- A writer that never fails, and has taken `bytes`. -/
def steady (bytes : List UInt8) : Writer := ⟨bytes, [], []⟩

theorem steady_reliable (bytes : List UInt8) : Reliable (steady bytes) :=
  ⟨fun _ h => absurd h List.not_mem_nil, fun _ h => absurd h List.not_mem_nil⟩

/-- Between frames, the encoder could have been given another writer. -/
theorem Session.steady (h : Session info dict p w e) (hp : p.opened = []) :
    ∃ bytes, Session info dict p (steady []) { e with w := steady bytes } := by
  obtain ⟨⟨hclosed, hidle, hsized, hpristine⟩, hinfo, hdict, hfirst, bytes, hstream, -⟩ := h.resting hp
  refine ⟨bytes, h.fine, .inl ⟨hp, ⟨hclosed, hidle, hsized, fun hl => ?_⟩, hinfo, hdict, hfirst, bytes,
    hstream, rfl, fun _ => steady_reliable bytes⟩⟩
  obtain ⟨h₁, h₂, h₃, h₄, h₅, h₆, h₇, h₈⟩ := hpristine hl
  exact ⟨h₁, h₂, h₃, h₄, h₅, h₆, h₇, h₈⟩

/-- What a new encoder is depends on the header and the dictionary only. -/
theorem created_eq (h : Created X w e) :
    ∃ e₀, withFrameInfo X .default w = .ret e₀ ∧
      e = { e₀ with frameInfo := e.frameInfo, dict := e.dict } := by
  have hform {i : FrameInfo} {e : FrameEncoder X} (hx : withFrameInfo X i w = .ret e) :
      ∃ e₀, withFrameInfo X .default w = .ret e₀ ∧ e = { e₀ with frameInfo := i } := by
    obtain ⟨T, hT, he⟩ := Run.bind_eq_ret.mp hx
    refine ⟨{ e with frameInfo := .default }, ?_, ?_⟩
    · rw [withFrameInfo, hT, ← Run.ret.inj he]
      rfl
    · rw [← Run.ret.inj he]
  cases h with
  | new h =>
    obtain ⟨e₀, h₀, rfl⟩ := hform h
    exact ⟨e₀, h₀, rfl⟩
  | withFrameInfo h =>
    obtain ⟨e₀, h₀, rfl⟩ := hform h
    exact ⟨e₀, h₀, rfl⟩
  | withDictionary h =>
    obtain ⟨e', hnew, he⟩ := Run.bind_eq_ret.mp h
    obtain rfl := Run.ret.inj he
    obtain ⟨e₀, h₀, rfl⟩ := hform hnew
    exact ⟨e₀, h₀, rfl⟩

/-- The encoder `e₁` has no frame open, after calls on the new encoder `e`. -/
structure Between (t : Target) (w : Writer) (e e₁ : FrameEncoder X) : Prop where
  created : Created X w e
  ran : ∃ before rs, encoderRun t e before = .ret (rs, e₁)
  fine : e₁.failed = false
  closed : e₁.isFrameOpen = false

theorem Between.session {t : Target} {e₁ : FrameEncoder X} (h : Between t w e e₁) :
    ∃ p, Session e.frameInfo e.dict p w e₁ ∧ p.opened = [] := by
  obtain ⟨before, rs, hr⟩ := h.ran
  rcases encoderRun_ok t before (created_session h.created) with ⟨hpanic, -⟩ | hran
  · cases hr.symm.trans hpanic
  · rw [hr] at hran
    cases (hran : Ran _ _ _ _ _ _) with
    | ok hs =>
      refine ⟨_, hs, ?_⟩
      rcases hs.state with ⟨hnil, -⟩ | ⟨-, f, hl, -⟩
      · exact hnil
      · exact absurd (hl.begun.isOpen.symm.trans h.closed) (by decide)
    | failed hf _ => exact absurd (hf.symm.trans h.fine) (by decide)

/-- No call fails because of the writer. -/
def Undisturbed (w : Writer) (rs : List (Except Error Nat)) : Prop :=
  Reliable w ∨ ∀ err, .error err ∉ rs

theorem Coupled.of_reliable {P : Prop} {x y : Run (List (Except Error Nat) × FrameEncoder X)}
    (h : Coupled w v P x y) (hw : Reliable w) :
    x = .panic ∧ y = .panic ∨ ∃ rs e e', x = .ret (rs, e) ∧ y = .ret (rs, e') ∧ Twin w v P e e' := by
  cases h with
  | @both rs e e' ht => exact .inr ⟨rs, e, e', rfl, rfl, ht⟩
  | panic => exact .inl ⟨rfl, rfl⟩
  | behind hr => exact absurd hw hr

/-- The bytes of a frame with something in it are those of the first frame of a new
encoder whose writer never fails, or the first of them. -/
theorem Between.sent {t : Target} {e₁ e₂ : FrameEncoder X} (h : Between t w e e₁)
    (hne : e.frameInfo.blockSize ≠ .auto) {cs : List WriteCall}
    (hdata : (WriteCall.segments cs).flatten ≠ []) {rs : List (Except Error Nat)}
    (hr : encoderRun t e₁ (cs.map WriteCall.toEncoder ++ [.tryFinish]) = .ret (rs, e₂)) :
    ∃ sent, e₂.w.accepted = e₁.w.accepted ++ sent ∧
      (∀ e₃, drive t { e with w := steady [] } (cs.map WriteCall.toEncoder ++ [.tryFinish]) = .ret e₃ →
        sent <+: e₃.w.accepted) ∧
      (Undisturbed w rs → ∃ e₃, drive t { e with w := steady [] }
        (cs.map WriteCall.toEncoder ++ [.tryFinish]) = .ret e₃ ∧ e₃.w.accepted = sent) := by
  obtain ⟨p, hs, hp⟩ := h.session
  obtain ⟨before, rs₀, hbefore⟩ := h.ran
  obtain ⟨bytes, hsteady⟩ := hs.steady hp
  have hi : e₁.frameInfo = e.frameInfo :=
    (encoderRun_onward (steady_reliable []) t before hbefore).info hne
  have hnew := created_session (created_writer h.created (steady [])).2
  have ht : Twin e₁.w (steady bytes) True e₁ { e₁ with w := steady bytes } :=
    ⟨⟨_, _, _, _, rfl⟩, fun _ => rfl, fun _ => rfl, [], .refl _, .refl _⟩
  have hpoised : Poised e.frameInfo e.dict (steady []) (steady []) (steady bytes) (steady []) p .start
      { e₁ with w := steady bytes } { e with w := steady [] } :=
    ⟨hsteady, hnew, hp, rfl, hi, .refl _, .refl _⟩
  generalize hL : cs.map WriteCall.toEncoder ++ [.tryFinish] = calls at hr ⊢
  have hleft := encoderRun_tandem (steady_reliable bytes) t calls hs ht (.inl trivial)
  have hright := hpoised.run (steady_reliable []) (steady_reliable []) (steady_reliable []) t cs hdata
  rw [hL] at hright
  generalize encoderRun t { e₁ with w := steady bytes } calls = y at hleft hright
  rw [hr] at hleft
  unfold drive
  generalize hx : Run.ret (rs, e₂) = x at hleft
  cases hleft with
  | both hl =>
    obtain ⟨rfl, rfl⟩ := Prod.mk.inj (Run.ret.inj hx)
    obtain ⟨sent, hw, hv⟩ := hl.sent
    rcases hright.of_reliable (steady_reliable bytes) with ⟨hpanic, -⟩ | ⟨rs', e', e₃, hy, hz, ht'⟩
    · cases hpanic
    · obtain ⟨rfl, rfl⟩ := Prod.mk.inj (Run.ret.inj hy)
      obtain ⟨sent', hw', hv'⟩ := ht'.sent
      obtain rfl : sent = sent' := List.append_cancel_left (hv.accepted.symm.trans hw'.accepted)
      have haccepted : e₃.w.accepted = sent := hv'.accepted
      refine ⟨sent, hw.accepted, fun e₄ h₄ => ?_, fun _ => ⟨e₃, by rw [hz]; rfl, haccepted⟩⟩
      rw [hz] at h₄
      obtain rfl := Run.ret.inj h₄
      rw [haccepted]
  | panic => cases hx
  | behind hw herr hbehind =>
    obtain ⟨rfl, rfl⟩ := Prod.mk.inj (Run.ret.inj hx)
    obtain ⟨sent, hsent⟩ := (encoderRun_onward (steady_reliable []) t calls hr).accepted
    refine ⟨sent, hsent.symm, fun e₄ h₄ => ?_, fun hund => ?_⟩
    · rcases hright.of_reliable (steady_reliable bytes) with ⟨-, hpanic⟩ | ⟨rs', e', e₃, hy, hz, ht'⟩
      · rw [hpanic] at h₄
        cases h₄
      · rw [hz] at h₄
        obtain rfl := Run.ret.inj h₄
        obtain ⟨-, sent₁, more, hl, hr₁⟩ := hbehind _ hy
        obtain ⟨sent', hw', hv'⟩ := ht'.sent
        obtain rfl : sent = sent₁ := List.append_cancel_left (hsent.trans hl)
        obtain rfl : sent' = sent ++ more := List.append_cancel_left (hw'.accepted.symm.trans hr₁)
        exact ⟨more, hv'.accepted.symm⟩
    · rcases hund with hreliable | hok
      · obtain ⟨bytes', -, hb⟩ := (hs.resting hp).sent
        exact absurd (hb.reliable hreliable) hw
      · obtain ⟨err, hmem⟩ := herr
        exact absurd hmem (hok err)

/-- What is written to the open frame is not longer than the data. -/
theorem opened_le : ∀ (cs : List WriteCall) {p : Progress} {calls : List EncoderCall},
    calls <+: cs.map WriteCall.toEncoder ++ [.tryFinish] →
    (calls.foldl Progress.step p).opened.length ≤
      p.opened.length + (WriteCall.segments cs).flatten.length
  | _, p, [], _ => Nat.le_add_right _ _
  | [], p, c :: calls, h => by
    obtain ⟨rfl, hnil⟩ := List.cons_prefix_cons.mp h
    obtain rfl := List.prefix_nil.mp hnil
    show (p.step .tryFinish).opened.length ≤ _
    rw [Progress.step]
    split
    · exact Nat.le_add_right _ _
    · exact Nat.zero_le _
  | .flush :: cs, p, c :: calls, h => by
    obtain ⟨rfl, hcalls⟩ := List.cons_prefix_cons.mp h
    exact @opened_le cs p calls hcalls
  | .write a :: cs, p, c :: calls, h => by
    obtain ⟨rfl, hcalls⟩ := List.cons_prefix_cons.mp h
    have hle := @opened_le cs (p.step (.write a)) calls hcalls
    have hopened : (p.step (.write a)).opened = p.opened ++ a := rfl
    rw [hopened, List.length_append] at hle
    rw [flatten_segments_write, List.length_append]
    exact Nat.le_trans hle (by omega)

/-- A frame that is not too long does not make the encoder panic. -/
theorem Between.returns {t : Target} {e₁ : FrameEncoder X} (h : Between t w e e₁) (cs : List WriteCall) :
    2 ^ 64 ≤ (WriteCall.segments cs).flatten.length ∨
      ∃ q, encoderRun t e₁ (cs.map WriteCall.toEncoder ++ [.tryFinish]) = .ret q := by
  obtain ⟨p, hs, hp⟩ := h.session
  rcases encoderRun_ok t (cs.map WriteCall.toEncoder ++ [.tryFinish]) hs with ⟨-, calls, hcalls, hlong⟩ | hran
  · have hle := @opened_le cs p calls hcalls
    rw [hp, List.length_nil, Nat.zero_add] at hle
    exact .inl (Nat.le_trans hlong hle)
  · obtain ⟨q, hq, -⟩ := Run.WP_iff.mp hran
    exact .inr ⟨q, hq⟩

/-- Two encoders that are new or have no frame open, with the same header and
dictionary, and the same data between flushes. -/
theorem encoderRun_afresh (t : Target) {e₁ e₁' : FrameEncoder X} (h : Between t w e e₁)
    (h' : Between t v e' e₁') (hinfo : e'.frameInfo = e.frameInfo) (hdict : e'.dict = e.dict)
    (hne : e.frameInfo.blockSize ≠ .auto) {cs cs' : List WriteCall}
    (hsegments : WriteCall.segments cs' = WriteCall.segments cs)
    (hdata : (WriteCall.segments cs).flatten ≠ []) :
    (2 ^ 64 ≤ (WriteCall.segments cs).flatten.length ∨ ∃ q q',
      encoderRun t e₁ (cs.map WriteCall.toEncoder ++ [.tryFinish]) = .ret q ∧
      encoderRun t e₁' (cs'.map WriteCall.toEncoder ++ [.tryFinish]) = .ret q') ∧
    ∀ q q', encoderRun t e₁ (cs.map WriteCall.toEncoder ++ [.tryFinish]) = .ret q →
      encoderRun t e₁' (cs'.map WriteCall.toEncoder ++ [.tryFinish]) = .ret q' →
      ∃ sent sent', q.2.w.accepted = e₁.w.accepted ++ sent ∧
        q'.2.w.accepted = e₁'.w.accepted ++ sent' ∧
        (Undisturbed v q'.1 → sent <+: sent' ∧ (Undisturbed w q.1 → sent = sent')) := by
  have hnew : ({ e with w := steady [] } : FrameEncoder X) = { e' with w := steady [] } := by
    obtain ⟨e₀, h₀, he₀⟩ := created_eq (created_writer h.created (steady [])).2
    obtain ⟨e₀', h₀', he₀'⟩ := created_eq (created_writer h'.created (steady [])).2
    obtain rfl := Run.ret.inj (h₀.symm.trans h₀')
    rw [he₀, he₀']
    dsimp only
    rw [hinfo, hdict]
  have hgoing : Going e.frameInfo e.dict (steady []) { e with w := steady [] } :=
    .inr ⟨⟨_, created_session (created_writer h.created (steady [])).2⟩, hne⟩
  have hdrive : drive t { e with w := steady [] } (cs.map WriteCall.toEncoder ++ [.tryFinish]) =
      drive t { e' with w := steady [] } (cs'.map WriteCall.toEncoder ++ [.tryFinish]) := by
    rw [← hnew, drive_segments t [.tryFinish] cs hgoing, drive_segments t [.tryFinish] cs' hgoing,
      hsegments]
  refine ⟨?_, fun q q' hq hq' => ?_⟩
  · rcases h.returns cs with hlong | ⟨q, hq⟩
    · exact .inl hlong
    · rcases h'.returns cs' with hlong | ⟨q', hq'⟩
      · exact .inl (by rwa [hsegments] at hlong)
      · exact .inr ⟨q, q', hq, hq'⟩
  · obtain ⟨sent, hsent, hpre, heq⟩ := h.sent hne hdata hq
    obtain ⟨sent', hsent', -, heq'⟩ := h'.sent (by rwa [hinfo]) (by rwa [hsegments]) hq'
    refine ⟨sent, sent', hsent, hsent', fun hv => ?_⟩
    obtain ⟨e₃, he₃, hacc⟩ := heq' hv
    rw [← hdrive] at he₃
    refine ⟨hacc ▸ hpre e₃ he₃, fun hw => ?_⟩
    obtain ⟨e₄, he₄, hacc'⟩ := heq hw
    obtain rfl := Run.ret.inj (he₃.symm.trans he₄)
    exact hacc'.symm.trans hacc

/-- Two ways to write `[1, 2, 3]`, behind another frame and in a new encoder. -/
theorem encoderRun_afresh_second :
    let t : Target := ⟨.w64, false, false⟩
    ∃ e e₁ e₂ e₃ : FrameEncoder Spec.xxHash32, Between t (steady []) e e₁ ∧
      e.frameInfo = { FrameInfo.default with blockSize := .max64KB } ∧
      encoderRun t e₁ [.write [1, 2, 3], .tryFinish] = .ret ([.ok 3, .ok 0], e₂) ∧
      encoderRun t e [.write [1], .write [], .write [2, 3], .tryFinish] =
        .ret ([.ok 1, .ok 0, .ok 2, .ok 0], e₃) ∧
      e₁.w.accepted ≠ [] ∧ e₂.w.accepted = e₁.w.accepted ++ e₃.w.accepted := by
  intro t
  obtain ⟨e, hnew⟩ : ∃ e, withFrameInfo Spec.xxHash32
    { FrameInfo.default with blockSize := .max64KB } (steady []) = .ret e := ⟨_, rfl⟩
  have hinfo := withFrameInfo_info hnew
  have hfirst : (encoderRun t e [.write [9], .tryFinish] >>= fun p => encoderRun t p.2
      [.write [1, 2, 3], .tryFinish] >>= fun q => .ret (q.1, p.2.failed, p.2.isFrameOpen,
        p.2.w.accepted.length)) = .ret ([.ok 3, .ok 0], false, false, 16) := by
    obtain rfl := Run.ret.inj hnew
    decide +kernel
  have hsecond : (encoderRun t e [.write [1], .write [], .write [2, 3], .tryFinish] >>= fun q =>
      .ret q.1) = .ret [.ok 1, .ok 0, .ok 2, .ok 0] := by
    obtain rfl := Run.ret.inj hnew
    decide +kernel
  obtain ⟨⟨rs₁, e₁⟩, he₁, hobs⟩ := Run.bind_eq_ret.mp hfirst
  obtain ⟨⟨rs₂, e₂⟩, he₂, hobs⟩ := Run.bind_eq_ret.mp hobs
  obtain ⟨⟨rs₃, e₃⟩, he₃, hobs₃⟩ := Run.bind_eq_ret.mp hsecond
  obtain ⟨hrs₂, hleft⟩ := Prod.mk.inj (Run.ret.inj hobs)
  obtain ⟨hfine, hleft⟩ := Prod.mk.inj hleft
  obtain ⟨hclosed, hlen⟩ := Prod.mk.inj hleft
  obtain rfl : rs₂ = _ := hrs₂
  obtain rfl : rs₃ = _ := Run.ret.inj hobs₃
  have hbetween : Between t (steady []) e e₁ := ⟨.withFrameInfo hnew, ⟨_, _, he₁⟩, hfine, hclosed⟩
  have hfresh : Between t (steady []) e e := by
    refine ⟨.withFrameInfo hnew, ⟨[], [], rfl⟩, ?_, ?_⟩
    · rw [← Run.ret.inj hnew]
    · rw [← Run.ret.inj hnew]
  have hsegments : WriteCall.segments [.write [1], .write [], .write [2, 3]] =
      WriteCall.segments [.write [1, 2, 3]] := rfl
  obtain ⟨-, hsame⟩ := encoderRun_afresh t hbetween hfresh rfl rfl (by rw [hinfo]; decide) hsegments
    (by decide)
  obtain ⟨sent, sent', h₂, h₃, heq⟩ := hsame _ _ he₂ he₃
  obtain rfl := (heq (.inl (steady_reliable []))).2 (.inl (steady_reliable []))
  have hempty : e.w.accepted = [] := by rw [← Run.ret.inj hnew]; rfl
  refine ⟨e, e₁, e₂, e₃, hbetween, hinfo, he₂, he₃, fun hnil => ?_, ?_⟩
  · have hlen : e₁.w.accepted.length = 16 := hlen
    rw [hnil] at hlen
    cases hlen
  · rw [h₂, h₃, hempty, List.nil_append]

end Lz4rip.Proof.Frame
