import Lz4rip.Framework.Tandem
import Lz4rip.Proof.Encode.Reuse
import Lz4rip.Proof.Frame.Session

/-!
# Two encoders in tandem

Two encoders are twins (`Twin`) when they agree on all that the code looks at: they
may have different writers and different output buffers, and where there is no
external dictionary the offset of the last one may differ. The writer of the right
one never fails. Given the same calls they write the same bytes, up to where the
left one's writer fails, which leaves the left one behind (`Behind`).
-/

namespace Lz4rip.Proof.Frame

open Lz4rip.Impl
open Lz4rip.Impl.FrameEncoder
open Proc (Moves Respects Tandem)

variable {X : XxHash32} {e e' : FrameEncoder X} {w v : Writer} {P : Prop}

/-- What all of the code leads to: more is written, and a block size that is set stays. -/
structure Onward (e e' : FrameEncoder X) : Prop where
  accepted : e.w.accepted <+: e'.w.accepted
  info : e.frameInfo.blockSize ≠ .auto → e'.frameInfo = e.frameInfo

theorem Onward.refl (e : FrameEncoder X) : Onward e e := ⟨List.prefix_refl _, fun _ => rfl⟩

theorem Onward.trans {e₁ e₂ e₃ : FrameEncoder X} (h : Onward e₁ e₂) (h' : Onward e₂ e₃) :
    Onward e₁ e₃ :=
  ⟨h.accepted.trans h'.accepted, fun hne => by
    have hi := h.info hne
    rw [h'.info (by rwa [hi]), hi]⟩

instance : Std.Refl (Onward (X := X)) := ⟨Onward.refl⟩

instance : Trans (Onward (X := X)) Onward Onward := ⟨Onward.trans⟩

/-- The encoders have come to the same, from the writers `w` and `v` on. -/
structure Twin (w v : Writer) (P : Prop) (e e' : FrameEncoder X) : Prop where
  same : ∃ d u o b, e' = { e with dst := d, w := u, extDictOffset := o, dataToFrameWritten := b }
  offset : e.extDictLen ≠ 0 → e'.extDictOffset = e.extDictOffset
  written : P → e'.dataToFrameWritten = e.dataToFrameWritten
  sent : ∃ bytes, Sent w bytes e.w ∧ Sent v bytes e'.w

/-- The left encoder has written less, as its writer has failed. -/
structure Behind (w v : Writer) (e e' : FrameEncoder X) : Prop where
  unreliable : ¬ Reliable w
  sent : ∃ bytes more, e.w.accepted = w.accepted ++ bytes ∧ e'.w.accepted = v.accepted ++ (bytes ++ more)

/-- Code that does the same on twins. -/
abbrev Tame (w v : Writer) (P : Prop) {α : Type} (x : Encode X α) : Prop :=
  Respects Onward (Twin w v P) (Behind w v) x

/-! ## Writing -/

/-- Both write `bytes`. -/
theorem Twin.wrote {e₁ e₁' : FrameEncoder X} {bytes : List UInt8} (h : Twin w v P e e')
    (h₁ : Wrote e bytes e₁) (h₁' : Wrote e' bytes e₁') : Twin w v P e₁ e₁' := by
  obtain ⟨⟨d, u, o, b, rfl⟩, ho, hb, sent, hs, hs'⟩ := h
  obtain ⟨u₁, hs₁, rfl⟩ := h₁
  obtain ⟨u₁', hs₁', rfl⟩ := h₁'
  exact ⟨⟨_, _, _, _, rfl⟩, ho, hb, _, hs.trans hs₁, hs'.trans hs₁'⟩

theorem writeAll_moves (buf : List UInt8) : Moves Onward (writeAll buf : Encode X Unit) := by
  intro e p h
  unfold writeAll at h
  rcases writeAll_cases e.w buf with ⟨u, hu, hs⟩ | ⟨err, u, taken, hu, -, ha, -⟩
  · rw [hu] at h
    exact Run.ret.inj h ▸ ⟨⟨buf, hs.accepted.symm⟩, fun _ => rfl⟩
  · rw [hu] at h
    exact Run.ret.inj h ▸ ⟨⟨taken, ha.symm⟩, fun _ => rfl⟩

theorem writeAll_tame (hv : Reliable v) (buf : List UInt8) :
    Tame w v P (writeAll buf : Encode X Unit) := by
  refine ⟨writeAll_moves buf, fun {e e'} h => ?_⟩
  obtain ⟨bytes, hs, hs'⟩ := h.sent
  have hright : ∃ e₁', writeAll buf e' = .ret (.ok (), e₁') ∧ Wrote e' buf e₁' := by
    rcases Proc.WP_iff.mp (writeAll_ok e' buf) with ⟨_, e₁', hx, hw⟩ | ⟨_, _, -, -, hr⟩
    · exact ⟨e₁', hx, hw⟩
    · exact absurd (hs'.reliable hv) hr
  obtain ⟨e₁', hx', hw'⟩ := hright
  rcases hc : writeAll_cases e.w buf with ⟨u, hu, hs₁⟩ | ⟨err, u, taken, hu, ⟨more, rfl⟩, ha, hr⟩
  · have hx : writeAll buf e = .ret (.ok (), { e with w := u }) := by
      unfold writeAll
      rw [hu]
      rfl
    rw [hx, hx']
    exact .ok ⟨rfl, h.wrote ⟨u, hs₁, rfl⟩ hw'⟩
  · have hx : writeAll (taken ++ more) e = .ret (.error (.ioError err), { e with w := u }) := by
      unfold writeAll
      rw [hu]
      rfl
    rw [hx, hx']
    obtain ⟨u', hs₁', rfl⟩ := hw'
    refine .stop (t := { e' with w := u' }) ⟨fun hw => hr (hs.reliable hw), bytes ++ taken, more, ?_, ?_⟩
      fun p hp => Run.ret.inj hp ▸ Onward.refl _
    · rw [ha, hs.accepted, List.append_assoc]
    · rw [hs₁'.accepted, hs'.accepted, List.append_assoc, List.append_assoc]

theorem flush_accepted (w : Writer) : w.flush.2.accepted = w.accepted := by
  unfold Writer.flush
  split <;> rfl

theorem flushWriter_moves : Moves Onward (flushWriter : Encode X Unit) := by
  intro e p h
  obtain rfl := Run.ret.inj h
  have ha : e.w.accepted <+: e.w.flush.2.accepted := by rw [flush_accepted]
  exact ⟨ha, fun _ => rfl⟩

theorem flushWriter_tame (hv : Reliable v) : Tame w v P (flushWriter : Encode X Unit) := by
  refine ⟨flushWriter_moves, fun {e e'} h => ?_⟩
  obtain ⟨bytes, hs, hs'⟩ := h.sent
  rcases Proc.WP_iff.mp (flushWriter_ok e') with ⟨_, e₁', hx', hw'⟩ | ⟨_, _, -, -, hr⟩
  · rcases Proc.WP_iff.mp (flushWriter_ok e) with ⟨_, e₁, hx, hw⟩ | ⟨err, e₁, hx, -, hr⟩
    · rw [hx, hx']
      exact .ok ⟨rfl, h.wrote hw hw'⟩
    · have ha : e₁.w.accepted = e.w.accepted := by
        rw [← flush_accepted e.w]
        exact congrArg (fun p => p.2.w.accepted) (Run.ret.inj hx).symm
      rw [hx, hx']
      obtain ⟨u', hs₁', rfl⟩ := hw'
      refine .stop (t := { e' with w := u' }) ⟨fun hw => hr (hs.reliable hw), bytes, [], ?_, ?_⟩
        fun p hp => Run.ret.inj hp ▸ Onward.refl _
      · rw [ha, hs.accepted]
      · rw [hs₁'.accepted, hs'.accepted, List.append_assoc]
  · exact absurd (hs'.reliable hv) hr

/-! ## What does not look at what may differ -/

/-- An update in which what twins may differ in has no part. -/
structure Plain (g : FrameEncoder X → FrameEncoder X) : Prop where
  same : ∀ e d u o b, ∃ d',
      g { e with dst := d, w := u, extDictOffset := o, dataToFrameWritten := b } =
        { g e with dst := d', w := u, extDictOffset := o, dataToFrameWritten := b } := by
    intros
    exact ⟨_, rfl⟩
  writer : ∀ e, (g e).w = e.w := by
    intros
    rfl
  offset : ∀ e, (g e).extDictOffset = e.extDictOffset := by
    intros
    rfl
  extLen : ∀ e, (g e).extDictLen ≠ 0 → e.extDictLen ≠ 0 := by
    intros
    assumption
  written : ∀ e, (g e).dataToFrameWritten = e.dataToFrameWritten := by
    intros
    rfl
  info : ∀ e, e.frameInfo.blockSize ≠ .auto → (g e).frameInfo = e.frameInfo := by
    intros
    rfl

theorem Plain.tame {g : FrameEncoder X → FrameEncoder X} (hg : Plain g) :
    Tame w v P (Proc.modify g) := by
  refine .modify (fun e => ⟨?_, hg.info e⟩) fun {e e'} h => ?_
  · rw [hg.writer]
  · obtain ⟨⟨d, u, o, b, rfl⟩, ho, hb, hs⟩ := h
    obtain ⟨d', hd⟩ := hg.same e d u o b
    rw [hd]
    exact ⟨⟨_, _, _, _, rfl⟩, fun hne => (ho (hg.extLen e hne)).trans (hg.offset e).symm,
      fun hP => (hb hP).trans (hg.written e).symm, by rw [hg.writer]; exact hs⟩

/-- What comes after `get` does not look at what twins may differ in. -/
theorem get_tame {α : Type} {f : FrameEncoder X → Encode X α} (hf : ∀ e, Tame w v P (f e))
    (h : ∀ e d u o b,
      f { e with dst := d, w := u, extDictOffset := o, dataToFrameWritten := b } = f e := by
        intros; rfl) :
    Tame w v P (Proc.get >>= f) :=
  .get hf fun hst => by
    obtain ⟨⟨d, u, o, b, rfl⟩, -, -, -⟩ := hst
    exact h _ d u o b

theorem init_tame (t : Target) : Tame w v P (init t : Encode X Unit) := by
  unfold init
  exact get_tame fun _ => .bind (.lift _) fun _ => .bind (.lift _) fun _ => Plain.tame {}

theorem endFrame_tame (hv : Reliable v) : Tame w v P (endFrame : Encode X Unit) := by
  unfold endFrame
  refine get_tame fun _ => .bind (.lift _) fun _ => .bind (.ofExcept _) fun _ =>
    .bind (.ofExcept _) fun _ => .bind (writeAll_tame hv _) fun _ => ?_
  exact .ite (.bind (writeAll_tame hv _) fun _ => Plain.tame {}) (Plain.tame {})

theorem addStreamOffset_tame (t : Target) (delta : Nat) :
    Tame w v P (addStreamOffset t delta : Encode X Unit) := by
  unfold addStreamOffset
  refine get_tame fun e => ?_
  cases t.width with
  | w32 => exact .ite (Plain.tame {}) (.throw _)
  | w64 => exact .bind (.lift _) fun _ => Plain.tame {}

theorem beginFrame_tame (hv : Reliable v) (t : Target) (bufLen : Nat) :
    Tame w v P (beginFrame t bufLen : Encode X Unit) := by
  have hresolve : Plain fun e : FrameEncoder X => if e.frameInfo.blockSize = .auto then
      { e with frameInfo := { e.frameInfo with blockSize := .fromBufLength bufLen } } else e := by
    refine ⟨fun e d u o b => ?_, fun e => ?_, fun e => ?_, fun e => ?_, fun e => ?_, fun e hne => ?_⟩
    · by_cases ha : e.frameInfo.blockSize = .auto
      · simp only [if_pos ha]
        exact ⟨_, rfl⟩
      · simp only [if_neg ha]
        exact ⟨_, rfl⟩
    · split <;> rfl
    · split <;> rfl
    · split <;> exact id
    · split <;> rfl
    · rw [if_neg hne]
  have hreset : Plain fun e : FrameEncoder X => { e with
      contentLen := 0, srcStreamOffset := 0, src := e.src.clear, srcStart := 0, srcEnd := 0
      extDictLen := 0, contentHasher := X.withSeed 0, compressionTable := e.compressionTable.clear } :=
    { extLen := fun _ h => absurd rfl h }
  unfold beginFrame
  refine .bind hresolve.tame fun _ => .bind (init_tame t) fun _ => get_tame fun _ =>
    .bind (.lift _) fun _ => .bind (.ofExcept _) fun _ => .bind (.lift _) fun _ =>
    .bind (writeAll_tame hv _) fun _ => get_tame fun _ => ?_
  exact .ite (.bind hreset.tame fun _ => Plain.tame {}) (Plain.tame {})

theorem repositionTable_tame (t : Target) (max : Nat) :
    Tame w v P (repositionTable t max : Encode X Unit) := by
  unfold repositionTable
  exact get_tame fun _ => .bind (.lift _) fun _ => .ite (.bind (.lift _) fun _ => Plain.tame {}) (.pure _)

theorem seedTable_tame (t : Target) (src : List UInt8) :
    Tame w v P (seedTable t src : Encode X Unit) := by
  unfold seedTable
  exact get_tame fun _ => .ite (.bind (.lift _) fun _ => Plain.tame {}) (.pure _)

theorem emitBlock_tame (hv : Reliable v) (info : BlockInfo) (data : List UInt8) :
    Tame w v P (emitBlock info data : Encode X Unit) := by
  unfold emitBlock
  exact .bind (.ofExcept _) fun _ => .bind (writeAll_tame hv _) fun _ => .bind (writeAll_tame hv _) fun _ =>
    get_tame fun _ => .ite (writeAll_tame hv _) (.pure _)

/-- The end of the external dictionary stays where it was. -/
theorem Twin.shrink {delta : Nat} (h : Twin w v P e e') :
    Twin w v P
      { e with extDictOffset := e.extDictOffset + delta, extDictLen := e.extDictLen - delta }
      { e' with extDictOffset := e'.extDictOffset + delta, extDictLen := e'.extDictLen - delta } := by
  obtain ⟨⟨d, u, o, b, rfl⟩, ho, hb, hs⟩ := h
  refine ⟨⟨_, _, _, _, rfl⟩, fun hne => ?_, hb, hs⟩
  have heq : o = e.extDictOffset := ho fun hz => hne (by dsimp only; omega)
  rw [heq]

theorem assertApart_tame {max : Nat} :
    Tame w v P (do
      let e ← Proc.get
      Proc.lift (Run.assert (e.extDictLen = 0 ∨ e.srcStart + max ≤ e.extDictOffset)) :
        Encode X Unit) := by
  refine .get (fun _ => .lift _) fun {e e'} h => ?_
  obtain ⟨⟨d, u, o, b, rfl⟩, ho, -, -⟩ := h
  by_cases hz : e.extDictLen = 0
  · simp only [hz, true_or]
  · have heq : o = e.extDictOffset := ho hz
    rw [heq]

theorem slideSource_tame (t : Target) (max len : Nat) :
    Tame w v P (slideSource t max len : Encode X Unit) := by
  have hwrap (offset : Nat) : Tame w v P (Proc.modify fun e : FrameEncoder X =>
      { e with extDictOffset := offset, extDictLen := WINDOW_SIZE }) := by
    refine .modify (fun _ => ⟨List.prefix_refl _, fun _ => rfl⟩) fun h => ?_
    obtain ⟨⟨d, u, o, b, rfl⟩, -, hb, hs⟩ := h
    exact ⟨⟨_, _, _, _, rfl⟩, fun _ => rfl, hb, hs⟩
  have hshrink (delta : Nat) : Tame w v P (Proc.modify fun e : FrameEncoder X => { e with
      extDictOffset := e.extDictOffset + delta, extDictLen := e.extDictLen - delta }) :=
    .modify (fun _ => ⟨List.prefix_refl _, fun _ => rfl⟩) Twin.shrink
  unfold slideSource
  refine get_tame fun e => .ite (.bind (.lift _) fun _ => .ite ?_ (.ite ?_ assertApart_tame)) ?_
  · exact .bind (.lift _) fun _ => .bind (hwrap _) fun _ => .bind (addStreamOffset_tame t _) fun _ =>
      .bind (Plain.tame {}) fun _ => assertApart_tame
  · exact .bind (hshrink _) fun _ => get_tame fun _ => .bind (.lift _) fun _ => assertApart_tame
  · exact .bind (.lift _) fun _ => .bind (.lift _) fun _ => .bind (Plain.tame {}) fun _ =>
      addStreamOffset_tame t len

end Lz4rip.Proof.Frame
