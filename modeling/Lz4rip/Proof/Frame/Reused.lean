import Lz4rip.Proof.Frame.Alike
import Lz4rip.Proof.Frame.Bounded
import Lz4rip.Proof.Frame.Place
import Lz4rip.Spec.Hash

/-!
# A reused decoder

Two naive decoders on one reader that differ in what they have output give the
same sessions, up to an error of the left one (`session_upto`). After the end of a
stream or an error a decoder is as a new one but for what it has output, so it
gives what a new one gives up to the block with which that count overflows
(`reused_session`).
-/

namespace Lz4rip.Proof.Frame

open Lz4rip.Impl
open Lz4rip.Proc (Upto)
open Spec (Frame Settings Naive)

variable {X : XxHash32} {ρ : Type} [Read ρ] [LawfulRead ρ]

section

variable {B : Nat → Error → Prop} {O : Nat → Nat → Prop} {S S' : Settings}

theorem readMore_upto (h : Alike B (ρ := ρ) Eq O S S') (hh : HeadersAlike X B (ρ := ρ) Eq)
    {s s' : Naive ρ} (hn : Near Eq O s s') (hp : s.pending = []) :
    Upto (B s.output) (SameNear Eq O) (Near Eq O) (Naive.readMore X S s)
      (Naive.readMore X S' s') := by
  unfold Naive.readMore
  rw [Proc.bind_run, Proc.bind_run, Proc.get_run, Proc.get_run, Run.ret_bind, Run.ret_bind,
    Proc.andThen_ok, Proc.andThen_ok, hn.r]
  refine Upto.loop (fun _ s₁ _ s₁' => Near Eq O s₁ s₁' ∧ s₁.pending = [] ∧ s₁.output = s.output)
    (fun _ s₁' => Read.left s₁'.r) ?_ _ _ () s () s' ⟨hn, hp, rfl⟩ (Nat.lt_succ_self _)
    (Nat.lt_succ_self _)
  rintro ⟨⟩ s₁ ⟨⟩ s₁' ⟨hn, hp, ho⟩
  have hstep := (readMoreStep_upto h hn (fun _ => hh _ hn.r) hp).and_left (readMoreStep_ok hp)
  rw [ho] at hstep
  refine hstep.mono ?_ fun _ _ h => h
  rintro flow s₂ _ s₂' ⟨⟨rfl, hn'⟩, hq⟩
  match flow, hq with
  | .next _, ⟨hp', ho', hu⟩ =>
    unfold Used at hu
    rw [hn'.r, hn.r] at hu
    exact ⟨⟨hn', hp', ho'.trans ho⟩, by omega⟩
  | .done _, _ => exact ⟨rfl, hn'⟩

theorem fillBuf_upto (h : Alike B (ρ := ρ) Eq O S S') (hh : HeadersAlike X B (ρ := ρ) Eq)
    {s s' : Naive ρ} (hn : Near Eq O s s') (hp : s.pending = []) :
    Upto (B s.output) (SameNear Eq O) (Near Eq O) (Naive.fillBuf X S s)
      (Naive.fillBuf X S' s') := by
  unfold Naive.fillBuf
  rw [Proc.bind_run, Proc.bind_run, Proc.get_run, Proc.get_run, Run.ret_bind, Run.ret_bind,
    Proc.andThen_ok, Proc.andThen_ok, Proc.ite_run, Proc.ite_run, if_pos hp,
    if_pos (hn.pending ▸ hp)]
  refine (readMore_upto h hh hn hp).bind ?_ fun _ _ h => h
  rintro _ s₁ _ s₁' ⟨-, hn'⟩
  exact .ok ⟨hn'.pending, hn'⟩

omit [LawfulRead ρ] in
/-- The left decoder has stopped after `bytes` more. -/
def StopsAfter (B : Nat → Error → Prop) (s : Naive ρ) (bytes : List UInt8) (e : Error) : Prop :=
  ∃ out, out + s.pending.length = s.output + bytes.length ∧ B out e

omit [Read ρ] [LawfulRead ρ] in
theorem StopsAfter.pending {s s₁ : Naive ρ} {bytes : List UInt8} {e : Error}
    (h : StopsAfter B { s₁ with pending := [] } bytes e)
    (ho : s₁.output + s.pending.length = s.output + s₁.pending.length) :
    StopsAfter B s (s₁.pending ++ bytes) e := by
  obtain ⟨out, hout, hB⟩ := h
  refine ⟨out, ?_, hB⟩
  simp only [List.length_nil, Nat.add_zero] at hout
  rw [List.length_append]
  omega

omit [LawfulRead ρ] in
/-- Two runs of `read_to_end` past the bytes `buf`: in step, or the left one stops
after some of the bytes. -/
def EndUpto (B : Nat → Error → Prop) (O : Nat → Nat → Prop) (s : Naive ρ) (buf : List UInt8)
    (x y : Run (Except Error (List UInt8 × Except Error Nat) × Naive ρ)) : Prop :=
  (∃ bytes e f, x = .ret (.ok (buf ++ bytes, .error e), f) ∧ StopsAfter B s bytes e ∧
    ∀ p, y = .ret p → ∃ more res f', p = (.ok (buf ++ bytes ++ more, res), f')) ∨
  Proc.Refines (SameNear Eq O) (fun _ _ => False) x y

theorem readToEnd_upto (h : Alike B (ρ := ρ) Eq O S S') (hh : HeadersAlike X B (ρ := ρ) Eq)
    (hB : ∀ out e, B out e → e.kind ≠ .interrupted) :
    ∀ (n : Nat) (buf : List UInt8) (s s' : Naive ρ), Near Eq O s s' → toEndLeft s < n →
      EndUpto B O s buf (Proc.loop (Naive.readToEndStep X S) n buf s)
        (Proc.loop (Naive.readToEndStep X S') n buf s')
  | 0, _, _, _, _, hn => absurd hn (Nat.not_lt_zero _)
  | n + 1, buf, s, s', hnear, hn => by
    have bytes : ∀ s₁ s₁' : Naive ρ, Naive.fillBuf X S s = .ret (.ok s₁.pending, s₁) →
        Naive.fillBuf X S' s' = .ret (.ok s₁'.pending, s₁') → Near Eq O s₁ s₁' → s₁.pending ≠ [] →
        Read.left s₁.r < n → s₁.output + s.pending.length = s.output + s₁.pending.length →
        EndUpto B O s buf (Proc.loop (Naive.readToEndStep X S) (n + 1) buf s)
          (Proc.loop (Naive.readToEndStep X S') (n + 1) buf s') :=
      fun s₁ s₁' hfill hfill' hn₁ hp hl ho => by
        have hp' : s₁'.pending ≠ [] := hn₁.pending ▸ hp
        have ih := readToEnd_upto h hh hB n (buf ++ s₁.pending) { s₁ with pending := [] }
          { s₁' with pending := [] } ⟨hn₁.r, hn₁.frame, rfl, hn₁.output⟩
          (by rwa [toEndLeft, if_pos rfl, Nat.add_zero])
        rw [Proc.loop_next (readToEndStep_bytes hfill hp buf),
          Proc.loop_next (readToEndStep_bytes hfill' hp' buf), ← hn₁.pending]
        refine ih.imp_left fun hi => ?_
        obtain ⟨bytes, e, f, hx, hs, hy⟩ := hi
        refine ⟨s₁.pending ++ bytes, e, f, ?_, ?_, ?_⟩
        · rw [hx, List.append_assoc]
        · exact hs.pending ho
        · intro p hp
          obtain ⟨more, res, f', rfl⟩ := hy p hp
          exact ⟨more, res, f', by simp only [List.append_assoc]⟩
    unfold toEndLeft at hn
    by_cases hp : s.pending = []
    · rw [if_pos hp] at hn
      have hp' : s'.pending = [] := hnear.pending ▸ hp
      have hm := readMore_ok (X := X) (S := S) hp
      rcases readMore_upto (X := X) h hh hnear hp with ⟨e, f, hx, hBe⟩ | ⟨p, q, hx, hy, hb⟩
      · have hstep := readToEndStep_fail (fillBuf_fail hp hx) buf
        rw [if_neg (hB _ _ hBe)] at hstep
        refine .inl ⟨[], e, f, ?_, ⟨s.output, by rw [hp], hBe⟩, fun p hp => ?_⟩
        · rw [List.append_nil, Proc.loop_done hstep]
        · obtain ⟨x, s₁⟩ := p
          obtain ⟨more, res, -, rfl, -⟩ := readToEnd_accepts _ _ hp
          exact ⟨more, res, s₁, by rw [List.append_nil]⟩
      · rw [hx] at hm
        rcases hb.cases with ⟨k, s₁, _, s₁', rfl, rfl, rfl, hn'⟩ | ⟨e, s₁, s₁', rfl, rfl, hn'⟩
        · have hmore : More S s k s₁ := hm
          by_cases hk : k = 0
          · subst hk
            have he : s₁.pending = [] := List.length_eq_zero_iff.mp hmore.len
            refine .inr ?_
            rw [Proc.loop_done (readToEndStep_stop (he ▸ fillBuf_more hp hx) buf),
              Proc.loop_done (readToEndStep_stop ((hn'.pending ▸ he) ▸ fillBuf_more hp' hy) buf)]
            exact .ok ⟨rfl, hn'⟩
          · have hu := hmore.used
            unfold Used at hu
            refine bytes s₁ s₁' (fillBuf_more hp hx) (fillBuf_more hp' hy) hn' (hmore.pending_ne hk)
              (by omega) ?_
            rw [(hmore.counts hk).eq.1, hp, hmore.len]
            rfl
        · have hstep := readToEndStep_fail (fillBuf_fail hp hx) buf
          have hstep' := readToEndStep_fail (fillBuf_fail hp' hy) buf
          have hbroken : Broken s e s₁ := hm
          obtain ⟨hp₁, -, ho₁, -, hk⟩ := hbroken
          by_cases hi : e.kind = .interrupted
          · rw [if_pos hi] at hstep hstep'
            rw [Proc.loop_next hstep, Proc.loop_next hstep']
            have ih := readToEnd_upto h hh hB n buf s₁ s₁' hn' (by
              rw [toEndLeft, if_pos hp₁]
              have := (hk hi).1
              omega)
            refine ih.imp_left fun hi => ?_
            obtain ⟨bytes, e, f, hx, ⟨out, hout, hBe⟩, hy⟩ := hi
            refine ⟨bytes, e, f, hx, ⟨out, ?_, hBe⟩, hy⟩
            rw [hp₁, ho₁] at hout
            rw [hp]
            exact hout
          · rw [if_neg hi] at hstep hstep'
            refine .inr ?_
            rw [Proc.loop_done hstep, Proc.loop_done hstep']
            exact .ok ⟨rfl, hn'⟩
    · rw [if_neg hp] at hn
      exact bytes s s' (fillBuf_pending hp) (fillBuf_pending (hnear.pending ▸ hp)) hnear hp (by omega)
        rfl

omit [LawfulRead ρ] in
/-- Two calls: in step, or the left one stops. -/
def CallUpto (B : Nat → Error → Prop) (O : Nat → Nat → Prop) (s : Naive ρ) (c : Spec.Call ρ)
    (x y : Run (Spec.Reply × Naive ρ)) : Prop :=
  (∃ bytes e f, x = .ret (⟨bytes, some e⟩, f) ∧ StopsAfter B s bytes e ∧
    Spec.Calls.ends c ⟨bytes, some e⟩ = true ∧
    (∀ (C : Spec.Calls (Naive ρ) ρ), C.taken s c ⟨bytes, some e⟩ = bytes) ∧
    ∀ (C : Spec.Calls (Naive ρ) ρ) s' r f', y = .ret (r, f') → bytes <+: C.taken s' c r) ∨
  Run.Same (fun p q => p.1 = q.1 ∧ Near Eq O p.2 q.2) x y

theorem read_upto (h : Alike B (ρ := ρ) Eq O S S') (hh : HeadersAlike X B (ρ := ρ) Eq)
    {s s' : Naive ρ} (hn : Near Eq O s s') (len : Nat) :
    CallUpto B O s (.read len) ((Spec.naive X S).call s (.read len))
      ((Spec.naive X S').call s' (.read len)) := by
  simp only [Spec.Calls.call, Spec.naive]
  by_cases hp : s.pending = []
  · have hp' : s'.pending = [] := hn.pending ▸ hp
    have hm := readMore_ok (X := X) (S := S) hp
    rcases readMore_upto (X := X) h hh hn hp with ⟨e, f, hx, hBe⟩ | ⟨p, q, hx, hy, hb⟩
    · rw [read_fail hp hx]
      exact .inl ⟨[], e, f, rfl, ⟨s.output, by rw [hp], hBe⟩, rfl, fun _ => rfl,
        fun _ _ _ _ _ => List.nil_prefix⟩
    · rw [hx] at hm
      rcases hb.cases with ⟨n, s₁, _, s₁', rfl, rfl, rfl, hn'⟩ | ⟨e, s₁, s₁', rfl, rfl, hn'⟩
      · have hmore : More S s n s₁ := hm
        by_cases hz : n = 0
        · subst hz
          rw [read_stop hp hx, read_stop hp' hy]
          exact .inr ⟨rfl, hn'⟩
        · have hne := hmore.pending_ne hz
          rw [read_block hp hx hz hne, read_block hp' hy hz (hn'.pending ▸ hne), ← hn'.pending]
          exact .inr ⟨rfl, hn'.r, hn'.frame, rfl, hn'.output⟩
      · rw [read_fail hp hx, read_fail hp' hy]
        exact .inr ⟨rfl, hn'⟩
  · rw [read_pending hp, read_pending (hn.pending ▸ hp), ← hn.pending]
    exact .inr ⟨rfl, hn.r, hn.frame, rfl, hn.output⟩

theorem call_upto (h : Alike B (ρ := ρ) Eq O S S') (hh : HeadersAlike X B (ρ := ρ) Eq)
    (hB : ∀ out e, B out e → e.kind ≠ .interrupted) {s s' : Naive ρ} (hn : Near Eq O s s')
    (c : Spec.Call ρ) :
    CallUpto B O s c ((Spec.naive X S).call s c) ((Spec.naive X S').call s' c) := by
  cases c with
  | read len => exact read_upto h hh hn len
  | fillBuf =>
    simp only [Spec.Calls.call, Spec.naive]
    by_cases hp : s.pending = []
    · rcases fillBuf_upto (X := X) h hh hn hp with ⟨e, f, hx, hBe⟩ | ⟨p, q, hx, hy, hb⟩
      · rw [hx]
        exact .inl ⟨[], e, f, rfl, ⟨s.output, by rw [hp], hBe⟩, rfl, fun _ => rfl,
        fun _ _ _ _ _ => List.nil_prefix⟩
      · rw [hx, hy]
        rcases hb.cases with ⟨b, s₁, _, s₁', rfl, rfl, rfl, hn'⟩ | ⟨e, s₁, s₁', rfl, rfl, hn'⟩
        · exact .inr ⟨rfl, hn'⟩
        · exact .inr ⟨rfl, hn'⟩
    · rw [fillBuf_pending hp, fillBuf_pending (hn.pending ▸ hp), ← hn.pending]
      exact .inr ⟨rfl, hn⟩
  | consume amt =>
    refine .inr ?_
    simp only [Spec.Calls.call, Spec.naive, Naive.consume, Proc.bind_run, Proc.get_run, Run.ret_bind,
      Proc.andThen_ok, Proc.lift_run, Run.assert, ← hn.pending]
    split
    · exact ⟨rfl, hn.drop amt⟩
    · trivial
  | readToEnd =>
    have hlt : toEndLeft s < Read.left s.r + 2 := by unfold toEndLeft; split <;> omega
    have hend := readToEnd_upto (X := X) h hh hB _ [] s s' hn hlt
    simp only [Spec.Calls.call, Spec.naive, Naive.readToEnd, Proc.bind_run, Proc.get_run, Run.ret_bind,
      Proc.andThen_ok, ← hn.r]
    rcases hend with ⟨bytes, e, f, hx, hs, hy⟩ | ⟨p, q, hx, hy, hb⟩
    · rw [hx]
      refine .inl ⟨bytes, e, f, rfl, hs, rfl, fun _ => rfl, fun C _ r f' hr => ?_⟩
      obtain ⟨p, hp, hr⟩ := Run.bind_eq_ret.mp hr
      obtain ⟨more, res, f'', rfl⟩ := hy p hp
      rw [List.nil_append] at hr
      cases res with
      | ok n =>
        obtain ⟨rfl, rfl⟩ := Prod.mk.inj (Run.ret.inj hr)
        exact List.prefix_append ..
      | error e =>
        obtain ⟨rfl, rfl⟩ := Prod.mk.inj (Run.ret.inj hr)
        exact List.prefix_append ..
    · rw [hx, hy]
      rcases hb.cases with ⟨b, s₁, _, s₁', rfl, rfl, rfl, hn'⟩ | ⟨_, _, _, -, -, hf⟩
      · obtain ⟨bytes, n | e⟩ := b
        · exact .inr ⟨rfl, hn'⟩
        · exact .inr ⟨rfl, hn'⟩
      · exact hf.elim
  | replace r => exact .inr ⟨rfl, rfl, hn.frame, hn.pending, hn.output⟩

omit [LawfulRead ρ] in
/-- Two sessions: the same, or the left one stops after a part of the bytes. -/
def SessionUpto (B : Nat → Error → Prop) (s : Naive ρ)
    (x y : Run (List UInt8 × Option (Option Error))) : Prop :=
  (∃ bytes e, x = .ret (bytes, some (some e)) ∧ StopsAfter B s bytes e ∧
    ∀ bytes' ended, y = .ret (bytes', ended) → bytes <+: bytes') ∨ x = y

theorem session_upto (h : Alike B (ρ := ρ) Eq O S S') (hh : HeadersAlike X B (ρ := ρ) Eq)
    (hB : ∀ out e, B out e → e.kind ≠ .interrupted) :
    ∀ (cs : List (Spec.Call ρ)) (s s' : Naive ρ), Near Eq O s s' →
      SessionUpto B s ((Spec.naive X S).session s cs) ((Spec.naive X S').session s' cs)
  | [], _, _, _ => .inr rfl
  | c :: cs, s, s', hn => by
    rcases call_upto (X := X) h hh hB hn c with ⟨bytes, e, f, hx, hs, he, ht, hy⟩ | hsame
    · refine .inl ⟨bytes, e, ?_, hs, fun bytes' ended hr => ?_⟩
      · rw [Spec.Calls.session, hx, Run.ret_bind]
        dsimp only
        rw [if_pos he, ht]
        rfl
      · obtain ⟨⟨r, f'⟩, hr', hr⟩ := Run.bind_eq_ret.mp hr
        have hp := hy (Spec.naive X S') s' r f' hr'
        dsimp only at hr
        split at hr
        · obtain ⟨rfl, rfl⟩ := Prod.mk.inj (Run.ret.inj hr)
          exact hp
        · obtain ⟨q, -, hr⟩ := Run.bind_eq_ret.mp hr
          obtain ⟨rfl, rfl⟩ := Prod.mk.inj (Run.ret.inj hr)
          exact hp.trans (List.prefix_append ..)
    · have htaken : ∀ r, (Spec.naive X S').taken s' c r = (Spec.naive X S).taken s c r := fun r => by
        cases c with
        | consume amt => exact congrArg (List.take amt) hn.pending.symm
        | _ => rfl
      rcases hsame.cases with ⟨hx, hy⟩ | ⟨⟨r, s₁⟩, ⟨_, s₁'⟩, hx, hy, rfl, hn'⟩
      · refine .inr ?_
        rw [Spec.Calls.session, Spec.Calls.session, hx, hy]
        rfl
      · have ht := call_tallies hx
        rw [Spec.Calls.session, Spec.Calls.session, hx, hy, Run.ret_bind, Run.ret_bind]
        dsimp only
        rw [htaken]
        by_cases he : Spec.Calls.ends c r = true
        · rw [if_pos he, if_pos he]
          exact .inr rfl
        · rw [if_neg he, if_neg he]
          rcases session_upto h hh hB cs s₁ s₁' hn' with ⟨bytes, e, hs, ⟨out, ho, hBe⟩, hy⟩ | hs
          · refine .inl ⟨_, e, by rw [hs]; rfl, ⟨out, ?_, hBe⟩, fun bytes' ended hr => ?_⟩
            · unfold Tallies at ht
              rw [List.length_append]
              dsimp only at *
              omega
            · obtain ⟨⟨bytes'', ended'⟩, hr', hr⟩ := Run.bind_eq_ret.mp hr
              obtain ⟨rfl, rfl⟩ := Prod.mk.inj (Run.ret.inj hr)
              exact (List.prefix_append_right_inj _).mpr (hy _ _ hr')
          · exact .inr (by rw [hs])

end

/-! ## After the end of a stream -/

/-- No frame is open and nothing is left to be consumed. -/
def Ended (s : Naive ρ) : Prop := s.frame = none ∧ s.pending = []

section

variable {S : Settings} {s s' : Naive ρ}

omit [LawfulRead ρ] in
theorem More.ended (h : More S s 0 s') : Ended s' :=
  ⟨(h.stop rfl).1, List.length_eq_zero_iff.mp h.len⟩

omit [LawfulRead ρ] in
theorem Broken.ended {e : Error} (h : Broken s e s') : Ended s' := ⟨h.2.1, h.1⟩

theorem read_ended {x : Except Error (List UInt8)} {len : Nat}
    (h : Naive.read X S len s = .ret (x, s')) (he : (Spec.Calls.reply x).error.isSome ∨
      len ≠ 0 ∧ (Spec.Calls.reply x).bytes = []) : Ended s' := by
  have taken : ∀ s₁ : Naive ρ, s₁.pending ≠ [] → ¬ (len ≠ 0 ∧ s₁.pending.take len = []) :=
    fun s₁ hp ⟨hl, ht⟩ => (List.take_eq_nil_iff.mp ht).elim hl hp
  by_cases hp : s.pending = []
  · obtain ⟨n, s₁, hm, hmore⟩ | ⟨e, s₁, hm, hb⟩ := Proc.WP_iff.mp (readMore_ok (X := X) (S := S) hp)
    · by_cases hn : n = 0
      · subst hn
        rw [read_stop hp hm] at h
        obtain ⟨rfl, rfl⟩ := Prod.mk.inj (Run.ret.inj h)
        exact hmore.ended
      · have hne := hmore.pending_ne hn
        rw [read_block hp hm hn hne] at h
        obtain ⟨rfl, rfl⟩ := Prod.mk.inj (Run.ret.inj h)
        exact he.elim nofun fun he => absurd he (taken s₁ hne)
    · rw [read_fail hp hm] at h
      obtain ⟨rfl, rfl⟩ := Prod.mk.inj (Run.ret.inj h)
      exact hb.ended
  · rw [read_pending hp] at h
    obtain ⟨rfl, rfl⟩ := Prod.mk.inj (Run.ret.inj h)
    exact he.elim nofun fun he => absurd he (taken s hp)

theorem fillBuf_ended {x : Except Error (List UInt8)} (h : Naive.fillBuf X S s = .ret (x, s'))
    (he : (Spec.Calls.reply x).error.isSome ∨ (Spec.Calls.reply x).bytes = []) : Ended s' := by
  have hw := fillBuf_ok (X := X) (S := S) s
  rw [h] at hw
  match x, hw with
  | .ok bs, ⟨hbs, hf⟩ =>
    obtain rfl : bs = [] := he.resolve_left nofun
    by_cases hp : s.pending = []
    · rw [if_pos hp] at hf
      exact hf.ended
    · rw [if_neg hp] at hf
      exact absurd (hf ▸ hbs.symm) hp
  | .error _, ⟨_, hb⟩ => exact hb.ended

theorem readToEnd_ended : ∀ (n : Nat) (buf : List UInt8) {s s' : Naive ρ}
    {x : Except Error (List UInt8 × Except Error Nat)},
    Proc.loop (Naive.readToEndStep X S) n buf s = .ret (x, s') → Ended s'
  | 0, _, _, _, _, h => nomatch h
  | n + 1, buf, s, s', x, h => by
    obtain ⟨bs, s₁, hf, hbs, -⟩ | ⟨e, s₁, hf, -⟩ := Proc.WP_iff.mp (fillBuf_ok (X := X) (S := S) s)
    · by_cases hb : bs = []
      · subst hb
        rw [Proc.loop_done (readToEndStep_stop hf buf)] at h
        obtain ⟨rfl, rfl⟩ := Prod.mk.inj (Run.ret.inj h)
        exact fillBuf_ended hf (.inr rfl)
      · rw [hbs] at hf hb
        rw [Proc.loop_next (readToEndStep_bytes hf hb buf)] at h
        exact readToEnd_ended n _ h
    · have hstep := readToEndStep_fail hf buf
      split at hstep
      · rw [Proc.loop_next hstep] at h
        exact readToEnd_ended n buf h
      · rw [Proc.loop_done hstep] at h
        obtain ⟨rfl, rfl⟩ := Prod.mk.inj (Run.ret.inj h)
        exact fillBuf_ended hf (.inl rfl)

/-- A call that says that the stream has ended, or is broken, leaves no frame
open. -/
theorem call_ended {c : Spec.Call ρ} {r : Spec.Reply}
    (h : (Spec.naive X S).call s c = .ret (r, s')) (he : Spec.Calls.ends c r = true) : Ended s' := by
  cases c with
  | read len =>
    obtain ⟨⟨x, s₁⟩, hx, h⟩ := Run.bind_eq_ret.mp h
    obtain ⟨rfl, rfl⟩ := Prod.mk.inj (Run.ret.inj h)
    simp only [Spec.Calls.ends, Bool.or_eq_true, Bool.and_eq_true, bne_iff_ne,
      List.isEmpty_iff] at he
    exact read_ended hx he
  | fillBuf =>
    obtain ⟨⟨x, s₁⟩, hx, h⟩ := Run.bind_eq_ret.mp h
    obtain ⟨rfl, rfl⟩ := Prod.mk.inj (Run.ret.inj h)
    simp only [Spec.Calls.ends, Bool.or_eq_true, List.isEmpty_iff] at he
    exact fillBuf_ended hx he
  | consume => cases he
  | readToEnd =>
    obtain ⟨⟨x, s₁⟩, hx, h⟩ := Run.bind_eq_ret.mp h
    simp only [Spec.naive, Naive.readToEnd, Proc.bind_run, Proc.get_run, Run.ret_bind,
      Proc.andThen_ok] at hx
    have hended := readToEnd_ended _ _ hx
    rcases x with e | ⟨bytes, e | n⟩
    · exact (Prod.mk.inj (Run.ret.inj h)).2 ▸ hended
    · exact (Prod.mk.inj (Run.ret.inj h)).2 ▸ hended
    · exact (Prod.mk.inj (Run.ret.inj h)).2 ▸ hended
  | replace => cases he

end

/-- The count of the output overflows with a block that comes after `out` bytes. -/
def Overflows (t : Target) (out : Nat) (e : Error) : Prop :=
  e = Overflow t ∧ ∃ len ≤ 4194304, t.modulus ≤ out + len

/-- Without a limit, only the overflow of the count depends on what has been
output before. -/
theorem reused_alike {S : Settings} (hmax : S.maxOutput = S.target.usizeMax) (base : Nat) :
    Alike (Overflows S.target) (Eq (α := ρ)) (fun out out' => out = base + out') S S where
  dict := rfl
  dictId := rfl
  why := rfl
  full {r _} out n hr := by
    subst hr
    obtain ⟨b, r', hx, -⟩ | ⟨e, r', hx, -⟩ := Proc.WP_iff.mp (readFull_ok n r)
    · rw [hx]
      exact .ok ⟨rfl, rfl⟩
    · rw [hx]
      exact .error rfl
  count {out out'} len hl ho := by
    subst ho
    unfold Counts
    rw [hmax, checkOutputLen_unlimited, checkOutputLen_unlimited]
    by_cases h : S.target.modulus ≤ base + out' + len
    · rw [if_pos h]
      exact .inl ⟨_, rfl, .inl ⟨rfl, len, hl, h⟩⟩
    · rw [if_neg h, if_neg (by omega)]
      exact .inr ⟨_, _, rfl, rfl, Nat.add_assoc ..⟩

theorem reused_headers {B : Nat → Error → Prop} : HeadersAlike X B (Eq (α := ρ)) := by
  rintro r _ out rfl
  obtain ⟨b, r', hx, -⟩ | ⟨e, r', hx, -⟩ := Proc.WP_iff.mp (readHeader_ok X r)
  · rw [hx]
    exact .ok ⟨rfl, rfl⟩
  · rw [hx]
    exact .error rfl

/-- Where `out` was counted before, `bytes` of the stream are taken, and the count overflows with
the block that comes next. -/
def OverflowsAt (X : XxHash32) (S : Settings) (stream : ρ) (out : Nat) (bytes : List UInt8) : Prop :=
  ∃ bs s f r len, Accepts X S { Naive.start stream with output := out } bytes bs s ∧
    Comes X S s [] f (out + bytes.length) r ∧ LengthAt X S f r len ∧ len ≤ 4194304 ∧
    S.target.modulus ≤ out + bytes.length + len

/-- A session that ends with the overflow has come to such a block. -/
theorem session_overflows {S : Settings} (hmax : S.maxOutput = S.target.usizeMax) {stream : ρ} {out : Nat}
    {cs : List (Spec.Call ρ)} {bytes : List UInt8}
    (h : (Spec.naive X S).session { Naive.start stream with output := out } cs =
      .ret (bytes, some (some (Overflow S.target)))) : OverflowsAt X S stream out bytes := by
  obtain ⟨bs, s₁, s₂, hacc, hp, hstep⟩ := session_fails h
  obtain ⟨f, out', r, len, hcomes, hlen, hle, hcheck⟩ := readMoreStep_exceeds hstep
  have hcount : out' = s₁.output := hcomes.count hp
  have htaken : s₁.output = out + bytes.length := by
    have htally := hacc.tallies
    unfold Tallies at htally
    rw [hp] at htally
    exact htally
  rw [hcount, htaken] at hcomes hcheck
  refine ⟨bs, s₁, f, r, len, hacc, hcomes, hlen, hle, ?_⟩
  rw [hmax, checkOutputLen_unlimited] at hcheck
  by_contra hfits
  rw [if_neg hfits] at hcheck
  cases hcheck

/-- After any calls the last of which has found the end of a stream, or an error,
a decoder without a limit has no frame open, and with the reader replaced it gives
what a new decoder gives, up to the block with which the count of all that it has
ever output overflows. -/
theorem reused_session (X : XxHash32) (t : Target) (options : FrameDecoderOptions)
    (hmax : options.maxOutput = none) (r : Reader) (history : List (Spec.Call Reader))
    (last : Spec.Call Reader) {replies : List Spec.Reply} {reply : Spec.Reply}
    {d d' : FrameDecoder X Reader}
    (hd : (Spec.frameDecoder X t true).run (FrameDecoder.withOptions X t r options) history =
      .ret (replies, d))
    (hd' : (Spec.frameDecoder X t true).call d last = .ret (reply, d'))
    (he : Spec.Calls.ends last reply = true) (stream : Reader) (cs : List (Spec.Call Reader)) :
    let reused := (Spec.frameDecoder X t true).session { d' with r := stream } cs
    let fresh := (Spec.frameDecoder X t true).session (FrameDecoder.withOptions X t stream options) cs
    d'.currentFrameInfo = none ∧
    (reused = fresh ∨ ∃ bytes, reused = .ret (bytes, some (some (Overflow t))) ∧
      OverflowsAt X (settings t options) stream d'.bytesOutput bytes ∧
      ∀ bytes' ended, fresh = .ret (bytes', ended) → bytes <+: bytes') := by
  intro reused fresh
  have hwhy := settings_why t options
  have hrun := run_refines true hwhy history _ _ (withOptions_rep X t r options)
  rw [settings_target, hd] at hrun
  obtain ⟨h₁, h₂⟩ | ⟨_, ⟨replies', s⟩, h₁, hs, -, hrep⟩ := hrun.cases
  · cases h₁
  obtain rfl := Run.ret.inj h₁
  have hcall := call_refines true hwhy last hrep
  rw [settings_target, hd'] at hcall
  obtain ⟨h₁, h₂⟩ | ⟨_, ⟨_, s'⟩, h₁, hs', rfl, hrep'⟩ := hcall.cases
  · cases h₁
  obtain rfl := Run.ret.inj h₁
  obtain ⟨hframe, hpending⟩ := call_ended hs' he
  refine ⟨hrep'.closed hframe, ?_⟩
  have hreused : reused = (Spec.naive X (settings t options)).session { s' with r := stream } cs := by
    have := (session_refines true hwhy cs _ _ (hrep'.withReader stream)).eq
    rwa [settings_target] at this
  have hfresh : fresh = (Spec.naive X (settings t options)).session (Naive.start stream) cs :=
    withOptions_session X t options stream true cs
  have hlimit : (settings t options).maxOutput = (settings t options).target.usizeMax := by
    show options.maxOutput.getD t.usizeMax = t.usizeMax
    rw [hmax]
    rfl
  have hnear : Near Eq (fun out out' => out = s'.output + out') { s' with r := stream }
      (Naive.start stream) := ⟨rfl, hframe, hpending, rfl⟩
  rw [hreused, hfresh]
  rcases session_upto (X := X) (reused_alike hlimit s'.output) reused_headers
    (fun _ _ h => h.1 ▸ nofun) cs _ _ hnear with ⟨bytes, e, hx, ⟨_, -, rfl, -⟩, hprefix⟩ | heq
  · have hcount : d'.bytesOutput = s'.output := hrep'.output
    have hstart : { s' with r := stream } = { Naive.start stream with output := s'.output } := by
      rw [Naive.start, ← hframe, ← hpending]
    rw [hcount, hstart]
    rw [hstart] at hx
    exact .inr ⟨bytes, hx, session_overflows hlimit hx, hprefix⟩
  · exact .inl heq

/-- A frame of one byte, in a stored block. -/
def oneByte : Reader :=
  ⟨[.data [0x04, 0x22, 0x4D, 0x18, 0x60, 0x40, 0x82, 1, 0, 0, 0x80, 7, 0, 0, 0, 0]]⟩

/-- And other bytes behind it. -/
def brokenBehind : Reader := ⟨oneByte.events ++ [.data [1, 2, 3, 4, 5, 6, 7]]⟩

/-- After a frame, and after the error behind it. -/
theorem reused_session_broken :
    let t : Target := ⟨.w32, false, false⟩
    let C := Spec.frameDecoder (ρ := Reader) Spec.xxHash32 t true
    let new := fun r : Reader => FrameDecoder.withOptions Spec.xxHash32 t r ⟨none, none⟩
    ∃ d', C.call (new brokenBehind) .readToEnd = .ret (⟨[7], some .wrongMagicNumber⟩, d') ∧
      let reused := C.session { d' with r := oneByte } [.readToEnd]
      let fresh := C.session (new oneByte) [.readToEnd]
      d'.currentFrameInfo = none ∧
      (reused = fresh ∨ ∃ bytes, reused = .ret (bytes, some (some (Overflow t))) ∧
        OverflowsAt Spec.xxHash32 (settings t ⟨none, none⟩) oneByte d'.bytesOutput bytes ∧
        ∀ bytes' ended, fresh = .ret (bytes', ended) → bytes <+: bytes') := by
  intro t C new
  have hrun : (C.call (new brokenBehind) .readToEnd >>= fun p => .ret p.1) =
      .ret ⟨[7], some .wrongMagicNumber⟩ := by
    decide +kernel
  obtain ⟨⟨reply, d'⟩, hcall, hreply⟩ := Run.bind_eq_ret.mp hrun
  obtain rfl := Run.ret.inj hreply
  exact ⟨d', hcall, reused_session Spec.xxHash32 t ⟨none, none⟩ rfl brokenBehind [] .readToEnd rfl hcall rfl
    oneByte [.readToEnd]⟩

theorem run_concat {σ ρ : Type} {C : Spec.Calls σ ρ} {c : Spec.Call ρ} {r : Spec.Reply} {s'' : σ} :
    ∀ {cs : List (Spec.Call ρ)} {s s' : σ} {rs : List Spec.Reply}, C.run s cs = .ret (rs, s') →
      C.call s' c = .ret (r, s'') → C.run s (cs ++ [c]) = .ret (rs ++ [r], s'')
  | [], s, s', rs, h, hc => by
    obtain ⟨rfl, rfl⟩ := Prod.mk.inj (Run.ret.inj h)
    rw [List.nil_append, Spec.Calls.run, hc]
    rfl
  | c' :: cs, s, s', rs, h, hc => by
    obtain ⟨⟨r', s₁⟩, hx, h⟩ := Run.bind_eq_ret.mp h
    obtain ⟨⟨rs', s₂⟩, hy, h⟩ := Run.bind_eq_ret.mp h
    obtain ⟨rfl, rfl⟩ := Prod.mk.inj (Run.ret.inj h)
    rw [List.cons_append, Spec.Calls.run, hx, Run.ret_bind]
    dsimp only
    rw [run_concat hy hc]
    rfl

/-- A decoder with 32-bit sizes that has been given the same frame of one byte again and
again stops at some time: it cannot count 4 GiB. -/
theorem reused_overflows :
    let t : Target := ⟨.w32, false, false⟩
    let C := Spec.frameDecoder (ρ := Reader) Spec.xxHash32 t true
    let new := fun r => FrameDecoder.withOptions Spec.xxHash32 t r ⟨none, none⟩
    ¬ ∀ history last replies reply d d', C.run (new ⟨[]⟩) history = .ret (replies, d) →
      C.call d last = .ret (reply, d') → Spec.Calls.ends last reply = true →
      ∀ stream cs, C.session { d' with r := stream } cs = C.session (new stream) cs := by
  intro t C new h
  have hfresh : C.session (new oneByte) [.readToEnd] = .ret ([7], some none) := by
    rw [withOptions_session]
    decide +kernel
  -- After `n` frames the count is `n`.
  have rounds : ∀ n : Nat, ∃ history replies reply d d' s,
      C.run (new ⟨[]⟩) history = .ret (replies, d) ∧ C.call d .readToEnd = .ret (reply, d') ∧
        Rep (settings t ⟨none, none⟩) d' s ∧ s.pending = [] ∧ s.output = n := by
    intro n
    induction n with
    | zero =>
      have hcall := call_refines true rfl .readToEnd
        (withOptions_rep Spec.xxHash32 t (⟨[]⟩ : Reader) ⟨none, none⟩)
      obtain ⟨h₁, h₂⟩ | ⟨⟨reply, d'⟩, ⟨reply', s⟩, h₁, h₂, -, hrep⟩ := hcall.cases
      · cases h₂
      · obtain ⟨-, rfl⟩ := Prod.mk.inj (Run.ret.inj h₂)
        exact ⟨[], [], reply, _, d', _, rfl, h₁, hrep, rfl, rfl⟩
    | succ n ih =>
      obtain ⟨history, replies, reply, d, d', s, hrun, hcall, hrep, hp, hs⟩ := ih
      have hsession := (h history .readToEnd replies reply d d' hrun hcall rfl oneByte
        [.readToEnd]).trans hfresh
      obtain ⟨⟨reply', d''⟩, hcall', hsession⟩ := Run.bind_eq_ret.mp hsession
      obtain ⟨hbytes, -⟩ := Prod.mk.inj (Run.ret.inj hsession)
      have hnext := call_refines true rfl .readToEnd (hrep.withReader oneByte)
      rw [settings_target, hcall'] at hnext
      obtain ⟨h₁, h₂⟩ | ⟨p, ⟨_, s'⟩, h₁, h₂, rfl, hrep'⟩ := hnext.cases
      · cases h₁
      · obtain rfl := Run.ret.inj h₁
        have htally := call_tallies h₂
        have hended := (call_ended h₂ rfl).2
        refine ⟨history ++ [.readToEnd] ++ [.replace oneByte], _, reply', _, d'', s',
          run_concat (run_concat hrun hcall) rfl, hcall', hrep', hended, ?_⟩
        unfold Tallies at htally
        have hone : ((Spec.naive Spec.xxHash32 (settings t ⟨none, none⟩)).taken
          { s with r := oneByte } .readToEnd reply').length = 1 := congrArg List.length hbytes
        rw [hone, hended] at htally
        simp only [hp, hs, List.length_nil] at htally
        exact htally
  obtain ⟨history, replies, reply, d, d', s, -, -, hrep, -, hs⟩ := rounds (2 ^ 32)
  have hbound := hrep.bound
  rw [hs] at hbound
  exact absurd hbound (by decide)

end Lz4rip.Proof.Frame
