import Lz4rip.Proof.Frame.InStep
import Lz4rip.Spec.Hash

/-!
# An encoder that has failed

Calls over any writer, next to the same calls over one that never fails: the first
writer has accepted a prefix of what the second one has (`Follows`). Once a call has
failed the encoder refuses every call and sends nothing (`Latched`); this is so for
the calls of the wrapper that `auto_finish` gives as well, and when that is dropped
(`encoderRun_latched`).
-/

namespace Lz4rip.Proof.Frame

open Lz4rip.Impl
open Lz4rip.Impl.FrameEncoder
open Proc (Tandem)
open Spec (Created EncoderCall Progress WriteCall autoCall autoDrop autoRun encoderCall encoderRun)

variable {X : XxHash32} {e e' : FrameEncoder X} {w v : Writer} {info : FrameInfo} {dict : List UInt8}
  {p : Progress} {P : Prop}

/-- An error leaves the encoder failed. -/
theorem Session.failed (t : Target) (h : Session info dict p w e) {c : EncoderCall} {err : Error}
    {e₁ : FrameEncoder X} (hr : encoderCall t c e = .ret (.error err, e₁)) : e₁.failed = true :=
  ((encoderCall_ok t h c).of_ret hr).1

theorem encoderRun_onward (hv : Reliable v) (t : Target) : ∀ (cs : List EncoderCall)
    {e e₁ : FrameEncoder X} {rs : List (Except Error Nat)}, encoderRun t e cs = .ret (rs, e₁) →
    Onward e e₁
  | [], e, e₁, rs, h => by
    obtain ⟨-, rfl⟩ := Prod.mk.inj (Run.ret.inj h)
    exact .refl e
  | c :: cs, e, e₁, rs, h => by
    rw [encoderRun_cons] at h
    obtain ⟨⟨r, e₂⟩, hc, h⟩ := Run.bind_eq_ret.mp h
    obtain ⟨⟨rs, e₃⟩, hcs, h⟩ := Run.bind_eq_ret.mp h
    obtain ⟨-, rfl⟩ := Prod.mk.inj (Run.ret.inj h)
    exact (encoderCall_moves hv t c _ _ hc).trans (encoderRun_onward hv t cs hcs)

theorem Behind.onward {e'' : FrameEncoder X} (h : Behind w v e e') (hm : Onward e' e'') :
    Behind w v e e'' := by
  obtain ⟨hw, bytes, more, hl, hr⟩ := h
  obtain ⟨rest, hrest⟩ := hm.accepted
  refine ⟨hw, bytes, more ++ rest, hl, ?_⟩
  rw [← hrest, hr, List.append_assoc, List.append_assoc]

/-- Two runs: neither returns, or the results are the same and the encoders are twins; or
the left one has failed, and is behind. -/
inductive Coupled (w v : Writer) (P : Prop) : Run (List (Except Error Nat) × FrameEncoder X) →
    Run (List (Except Error Nat) × FrameEncoder X) → Prop where
  | both {rs : List (Except Error Nat)} {e e' : FrameEncoder X} (h : Twin w v P e e') :
    Coupled w v P (.ret (rs, e)) (.ret (rs, e'))
  | panic : Coupled w v P .panic .panic
  | behind {rs : List (Except Error Nat)} {e : FrameEncoder X}
    {y : Run (List (Except Error Nat) × FrameEncoder X)} (hw : ¬ Reliable w)
    (herr : ∃ err, .error err ∈ rs) (h : ∀ q, y = .ret q → Behind w v e q.2) :
    Coupled w v P (.ret (rs, e)) y

/-- With the result of a call before. -/
theorem Coupled.cons {x y : Run (List (Except Error Nat) × FrameEncoder X)} (h : Coupled w v P x y)
    (r : Except Error Nat) :
    Coupled w v P (x >>= fun q => .ret (r :: q.1, q.2)) (y >>= fun q => .ret (r :: q.1, q.2)) := by
  cases h with
  | both h => exact .both h
  | panic => exact .panic
  | behind hw herr h =>
    obtain ⟨err, hmem⟩ := herr
    refine .behind hw ⟨err, List.mem_cons_of_mem _ hmem⟩ fun q hq => ?_
    obtain ⟨q', hq', hq⟩ := Run.bind_eq_ret.mp hq
    obtain rfl := Run.ret.inj hq
    exact h q' hq'

/-- Every `try_finish` ends a frame that has something in it. -/
def Fills : Progress → List EncoderCall → Prop
  | _, [] => True
  | p, c :: cs => (c = .tryFinish → p.opened ≠ []) ∧ Fills (p.step c) cs

/-- A call in step, and what comes after it. -/
theorem Coupled.call (hv : Reliable v) (t : Target) {w₀ : Writer} {c : EncoderCall}
    {cs : List EncoderCall} (hs : Session info dict p w₀ e)
    (hstep : Tandem Onward (fun n e n' e' => n = n' ∧ Twin w v P e e') (Twin w v P) (Behind w v)
      (encoderCall t c e) (encoderCall t c e'))
    (hcs : ∀ {e₁ e₁' : FrameEncoder X}, Session info dict (p.step c) w₀ e₁ → Twin w v P e₁ e₁' →
      Coupled w v P (encoderRun t e₁ cs) (encoderRun t e₁' cs)) :
    Coupled w v P (encoderRun t e (c :: cs)) (encoderRun t e' (c :: cs)) := by
  have hsafe := encoderCall_ok t hs c
  rw [encoderRun_cons, encoderRun_cons]
  generalize hx : encoderCall t c e = x at hstep
  generalize encoderCall t c e' = y at hstep
  cases hstep with
  | both hb =>
    rcases hb.cases with ⟨n, s, n', s', rfl, rfl, rfl, h₂⟩ | ⟨err, s, s', rfl, rfl, h₂⟩
    · exact (hcs (hsafe.of_ret hx).2 h₂).cons (.ok n)
    · have hf := hs.failed t hx
      have hf' : s'.failed = true := by
        obtain ⟨_, _, _, _, rfl⟩ := h₂.same
        exact hf
      rw [Run.ret_bind, Run.ret_bind, encoderRun_failed t hf, encoderRun_failed t hf']
      exact .both h₂
  | panic => exact .panic
  | fuel => exact absurd hx hsafe.ne_fuel
  | @stop err s t' _ hbehind hmove =>
    rw [Run.ret_bind, encoderRun_failed t (hs.failed t hx)]
    refine .behind hbehind.unreliable ⟨err, List.mem_cons_self ..⟩ fun q hq => ?_
    obtain ⟨q₁, hq₁, hq⟩ := Run.bind_eq_ret.mp hq
    obtain ⟨q₂, hq₂, hq⟩ := Run.bind_eq_ret.mp hq
    obtain rfl := Run.ret.inj hq
    exact hbehind.onward ((hmove q₁ hq₁).trans (encoderRun_onward hv t cs hq₂))

/-- The same calls on twins. -/
theorem encoderRun_tandem (hv : Reliable v) (t : Target) {w₀ : Writer} : ∀ (cs : List EncoderCall)
    {p : Progress} {e e' : FrameEncoder X}, Session info dict p w₀ e → Twin w v P e e' →
    P ∨ Fills p cs → Coupled w v P (encoderRun t e cs) (encoderRun t e' cs)
  | [], _, _, _, _, ht, _ => .both ht
  | c :: cs, p, e, e', hs, ht, hP => by
    have hstep := encoderCall_tandem hv t hs ht (hP.imp_right fun h => h.1)
    exact Coupled.call hv t hs hstep fun hs₁ ht₁ =>
      encoderRun_tandem hv t cs hs₁ ht₁ (hP.imp_right fun h => h.2)

/-- Run from the writers `w` and `v`, the left one has accepted a prefix. -/
theorem accepted_prefix (ha : v.accepted = w.accepted)
    {x y : Run (List (Except Error Nat) × FrameEncoder X)} (h : Coupled w v P x y)
    {q q' : List (Except Error Nat) × FrameEncoder X} (hx : x = .ret q) (hy : y = .ret q') :
    q.2.w.accepted <+: q'.2.w.accepted := by
  cases h with
  | both h =>
    obtain rfl := Run.ret.inj hx
    obtain rfl := Run.ret.inj hy
    obtain ⟨bytes, hl, hr⟩ := h.sent
    rw [hl.accepted, hr.accepted, ha]
  | panic => cases hx
  | behind _ _ h =>
    obtain rfl := Run.ret.inj hx
    obtain ⟨-, bytes, more, hl, hr⟩ := h q' hy
    rw [hl, hr, ha, ← List.append_assoc]
    exact List.prefix_append _ _

/-! ## The wrapper -/

theorem autoCall_eq (t : Target) (e : FrameEncoder X) (c : WriteCall) :
    autoCall t c e.autoFinish = encoderCall t c.toEncoder e >>= fun p => .ret (p.1, p.2.autoFinish) := by
  cases c with
  | write buf => rfl
  | flush =>
    show (FrameEncoder.flush t e >>= fun p => .ret (p.1, p.2.autoFinish)) >>= Proc.andThen _ =
      (FrameEncoder.flush t e >>= Proc.andThen _) >>= _
    rw [bind_assoc, bind_assoc]
    congr 1
    funext p
    obtain ⟨r, e₁⟩ := p
    cases r <;> rfl

/-- The wrapper's calls are the encoder's. -/
theorem autoRun_eq (t : Target) : ∀ (cs : List WriteCall) (e : FrameEncoder X),
    autoRun t e.autoFinish cs =
      encoderRun t e (cs.map WriteCall.toEncoder) >>= fun p => .ret (p.1, p.2.autoFinish)
  | [], _ => rfl
  | c :: cs, e => by
    rw [List.map_cons, encoderRun_cons, autoRun, autoCall_eq, bind_assoc, bind_assoc]
    congr 1
    funext p
    show (autoRun t p.2.autoFinish cs >>= fun q => .ret (p.1 :: q.1, q.2)) = _
    rw [autoRun_eq t cs, bind_assoc, bind_assoc]
    rfl

theorem encoderRun_append (t : Target) (cs cs' : List EncoderCall) : ∀ e : FrameEncoder X,
    encoderRun t e (cs ++ cs') = encoderRun t e cs >>= fun p => encoderRun t p.2 cs' >>= fun q =>
      .ret (p.1 ++ q.1, q.2) := by
  induction cs with
  | nil =>
    intro e
    show _ = encoderRun t e cs' >>= pure
    rw [bind_pure]
    rfl
  | cons c cs ih =>
    intro e
    rw [List.cons_append, encoderRun_cons, encoderRun_cons, bind_assoc]
    congr 1
    funext p
    rw [ih, bind_assoc, bind_assoc]
    congr 1
    funext q
    rw [bind_assoc]
    rfl

/-- Dropping the wrapper is a `try_finish`. -/
theorem autoDrop_eq (t : Target) (e : FrameEncoder X) (cs : List WriteCall) :
    autoDrop t e cs =
      encoderRun t e (cs.map WriteCall.toEncoder ++ [.tryFinish]) >>= fun p => .ret (some p.2.w) := by
  rw [autoDrop, autoRun_eq, bind_assoc, encoderRun_append, bind_assoc]
  congr 1
  funext p
  rw [encoderRun_cons, bind_assoc, bind_assoc]
  show (FrameEncoder.tryFinish t p.2 >>= _) = (FrameEncoder.tryFinish t p.2 >>= Proc.andThen _) >>= _
  rw [bind_assoc]
  congr 1
  funext q
  obtain ⟨r, e₁⟩ := q
  cases r <;> rfl

/-- The encoder refuses all calls, and nothing is sent; nor when it is wrapped and
dropped. -/
structure Latched (t : Target) (e : FrameEncoder X) : Prop where
  calls : ∀ cs, encoderRun t e cs = .ret (cs.map fun _ => .error REUSED, e)
  finish : FrameEncoder.finish t e = .ret (.error REUSED)
  autoCalls : ∀ cs, autoRun t e.autoFinish cs = .ret (cs.map fun _ => .error REUSED, e.autoFinish)
  drop : AutoFinishEncoder.drop t e.autoFinish = .ret (some e.w)

theorem latched_of_failed (t : Target) (hf : e.failed = true) : Latched t e := by
  have hfinish : FrameEncoder.tryFinish t e = .ret (.error REUSED, e) := by
    rw [FrameEncoder.tryFinish, Proc.bind_run, FrameEncoder.flush, Proc.bind_run, Proc.get_run,
      Run.ret_bind, Proc.andThen_ok, Proc.ite_run, if_pos hf, Proc.throw_run, Run.ret_bind,
      Proc.andThen_error]
  refine ⟨encoderRun_failed t hf, ?_, fun cs => ?_, ?_⟩
  · rw [FrameEncoder.finish, hfinish]
    rfl
  · rw [autoRun_eq, encoderRun_failed t hf, Run.ret_bind, List.map_map]
    rfl
  · show (FrameEncoder.tryFinish t e >>= _) = _
    rw [hfinish]
    rfl

/-! ## Runs -/

theorem withFrameInfo_writer {info : FrameInfo} (h : withFrameInfo X info w = .ret e) (v : Writer) :
    e.w = w ∧ withFrameInfo X info v = .ret { e with w := v } := by
  obtain ⟨T, hT, he⟩ := Run.bind_eq_ret.mp h
  obtain rfl := Run.ret.inj he
  refine ⟨rfl, ?_⟩
  rw [withFrameInfo, hT]
  rfl

/-- A new encoder has the writer that it was given, and could have been given another. -/
theorem created_writer (h : Created X w e) (v : Writer) :
    e.w = w ∧ Created X v { e with w := v } := by
  cases h with
  | new h => exact (withFrameInfo_writer h v).imp_right .new
  | withFrameInfo h => exact (withFrameInfo_writer h v).imp_right .withFrameInfo
  | @withDictionary dict id info _ h =>
    obtain ⟨e', hnew, he⟩ := Run.bind_eq_ret.mp h
    obtain rfl := Run.ret.inj he
    obtain ⟨hw, hv⟩ := withFrameInfo_writer hnew v
    refine ⟨hw, @Created.withDictionary X v dict id info _ ?_⟩
    rw [withDictionary, hv]
    rfl

/-- The encoder has sent a prefix of what the one with the reliable writer has, also if
both are wrapped, used and dropped now. -/
structure Follows (t : Target) (e e' : FrameEncoder X) : Prop where
  accepted : e.w.accepted <+: e'.w.accepted
  dropped : ∀ cs u u', autoDrop t e cs = .ret (some u) → autoDrop t e' cs = .ret (some u') →
    u.accepted <+: u'.accepted

theorem failed_of_error {t : Target} {e₁ : FrameEncoder X} {cs : List EncoderCall}
    {rs : List (Except Error Nat)} (h : Session info dict p w e) (hr : encoderRun t e cs = .ret (rs, e₁))
    (he : ∃ err, .error err ∈ rs) : e₁.failed = true := by
  rcases encoderRun_ok t cs h with ⟨hpanic, -⟩ | hran
  · cases hr.symm.trans hpanic
  · rw [hr] at hran
    cases (hran : Ran _ _ _ _ _ _) with
    | ok hs =>
      obtain ⟨err, hmem⟩ := he
      obtain ⟨c, -, hc⟩ := List.mem_map.mp hmem
      cases hc
    | failed hf _ => exact hf

/-- Calls on a new encoder, and the same over a writer that never fails. -/
theorem encoderRun_latched (t : Target) {w v : Writer} {e e₁ : FrameEncoder X}
    (h : Created X w e) (hv : Reliable v) (ha : v.accepted = w.accepted) {cs : List EncoderCall}
    {rs : List (Except Error Nat)} (hr : encoderRun t e cs = .ret (rs, e₁)) :
    (∀ rs' e₁', encoderRun t { e with w := v } cs = .ret (rs', e₁') → Follows t e₁ e₁') ∧
    ((∃ err, .error err ∈ rs) → Latched t e₁) ∧
    (∀ cs₂ rs₂ a, autoRun t e₁.autoFinish cs₂ = .ret (rs₂, a) → (∃ err, .error err ∈ rs ++ rs₂) →
      ∃ e₂, a = e₂.autoFinish ∧ Latched t e₂) ∧
    (Outgrows .start cs ∨ ∃ rs' e₁', encoderRun t { e with w := v } cs = .ret (rs', e₁')) := by
  have hs := created_session h
  obtain ⟨hw, h'⟩ := created_writer h v
  have ht : Twin w v True e { e with w := v } :=
    ⟨⟨_, _, _, _, rfl⟩, fun _ => rfl, fun _ => rfl, [], hw ▸ .refl _, .refl v⟩
  refine ⟨fun rs' e₁' hr' => ⟨?_, fun cs₂ u u' hu hu' => ?_⟩, fun herr => ?_, fun cs₂ rs₂ a hrun herr => ?_,
    ?_⟩
  · exact accepted_prefix ha (encoderRun_tandem hv t cs hs ht (.inl trivial)) hr hr'
  · rw [autoDrop_eq] at hu hu'
    obtain ⟨p, hp, hu⟩ := Run.bind_eq_ret.mp hu
    obtain ⟨p', hp', hu'⟩ := Run.bind_eq_ret.mp hu'
    obtain rfl := Option.some.inj (Run.ret.inj hu)
    obtain rfl := Option.some.inj (Run.ret.inj hu')
    have hall (x : FrameEncoder X) {r q} (hx : encoderRun t x cs = .ret r)
        (hq : encoderRun t r.2 (cs₂.map WriteCall.toEncoder ++ [.tryFinish]) = .ret q) :
        encoderRun t x (cs ++ (cs₂.map WriteCall.toEncoder ++ [.tryFinish])) = .ret (r.1 ++ q.1, q.2) := by
      rw [encoderRun_append, hx, Run.ret_bind, hq, Run.ret_bind]
    have hleft := hall e hr hp
    have hright := hall { e with w := v } hr' hp'
    have hpre := accepted_prefix ha (encoderRun_tandem hv t _ hs ht (.inl trivial)) hleft hright
    exact hpre
  · exact latched_of_failed t (failed_of_error hs hr herr)
  · rw [autoRun_eq] at hrun
    obtain ⟨⟨rs₃, e₂⟩, hp, hrun⟩ := Run.bind_eq_ret.mp hrun
    obtain ⟨rfl, rfl⟩ := Prod.mk.inj (Run.ret.inj hrun)
    have hall : encoderRun t e (cs ++ cs₂.map WriteCall.toEncoder) = .ret (rs ++ rs₃, e₂) := by
      rw [encoderRun_append, hr, Run.ret_bind, hp, Run.ret_bind]
    exact ⟨e₂, rfl, latched_of_failed t (failed_of_error hs hall herr)⟩
  · rcases encoderRun_ok t cs (created_session h') with ⟨-, hover⟩ | hran
    · exact .inl hover
    · obtain ⟨⟨rs', e₁'⟩, hr', -⟩ := Run.WP_iff.mp hran
      exact .inr ⟨rs', e₁', hr'⟩

/-- A writer that is full after three bytes. -/
theorem encoderRun_latched_full :
    let t : Target := ⟨.w64, false, false⟩
    let w : Writer := ⟨[], [.accept 3, .fail ⟨.other, "full"⟩], []⟩
    let v : Writer := ⟨[], [], []⟩
    ∃ e e₁ : FrameEncoder Spec.xxHash32, Created Spec.xxHash32 w e ∧
      encoderRun t e [.write [1, 2, 3], .flush] =
        .ret ([.error (.ioError ⟨.other, "full"⟩), .error REUSED], e₁) ∧
      e₁.w.accepted = [4, 34, 77] ∧ Latched t e₁ ∧
      ∀ rs' e₁', encoderRun t { e with w := v } [.write [1, 2, 3], .flush] = .ret (rs', e₁') →
        Follows t e₁ e₁' := by
  intro t w v
  obtain ⟨e, hnew⟩ : ∃ e, FrameEncoder.new Spec.xxHash32 w = .ret e := ⟨_, rfl⟩
  have hrun : (encoderRun t e [.write [1, 2, 3], .flush] >>= fun p => .ret (p.1, p.2.w.accepted)) =
      .ret ([.error (.ioError ⟨.other, "full"⟩), .error REUSED], [4, 34, 77]) := by
    obtain rfl := Run.ret.inj hnew
    decide +kernel
  obtain ⟨⟨rs, e₁⟩, he, hobs⟩ := Run.bind_eq_ret.mp hrun
  obtain ⟨rfl, haccepted⟩ := Prod.mk.inj (Run.ret.inj hobs)
  obtain ⟨hfollows, hlatched, -, -⟩ := encoderRun_latched t (.new hnew)
    (show Reliable v from ⟨by simp [v], by simp [v]⟩) rfl he
  exact ⟨e, e₁, .new hnew, he, haccepted, hlatched ⟨_, List.mem_cons_self ..⟩, hfollows⟩

end Lz4rip.Proof.Frame
