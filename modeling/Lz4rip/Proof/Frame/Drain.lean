import Lz4rip.Proof.Frame.Naive

/-!
# What is left of a stream

`Drains s bs o s'` says that the naive decoder, with nothing to be consumed,
decodes the blocks `bs` from here on and comes to the end of the stream
(`o = none`) or to an error. Every state drains (`Drains.total`), and each call
takes its bytes off the front of what is left (`call_serves`), so any calls give
the same bytes and the same end (`session_left`). What a call gives follows from what
`readMore` comes to and from what is pending, however it is said what still comes
(`Supplies`).
-/

namespace Lz4rip.Proof.Frame

open Lz4rip.Impl
open Spec (Frame Settings Naive)

variable {X : XxHash32} {S : Settings} {ρ : Type} [Read ρ]

/-- From `s` on, the blocks `bs` are decoded, up to the end of the stream or an
error. -/
inductive Drains (X : XxHash32) (S : Settings) :
    Naive ρ → List (List UInt8) → Option Error → Naive ρ → Prop where
  | stop {s s' : Naive ρ} (h : Naive.readMoreStep X S () s = .ret (.ok (.done 0), s')) :
    Drains X S s [] none s'
  | fail {s s' : Naive ρ} {e : Error} (h : Naive.readMoreStep X S () s = .ret (.error e, s')) :
    Drains X S s [] (some e) s'
  | skip {s s' s'' : Naive ρ} {bs : List (List UInt8)} {o : Option Error}
    (h : Naive.readMoreStep X S () s = .ret (.ok (.next ()), s')) (hd : Drains X S s' bs o s'') :
    Drains X S s bs o s''
  | block {s s' s'' : Naive ρ} {n : Nat} {bs : List (List UInt8)} {o : Option Error}
    (h : Naive.readMoreStep X S () s = .ret (.ok (.done n), s')) (hn : n ≠ 0)
    (hd : Drains X S { s' with pending := [] } bs o s'') : Drains X S s (s'.pending :: bs) o s''

/-- What `readMore` gives, of the blocks that are left. -/
inductive NextOf (X : XxHash32) (S : Settings) (s : Naive ρ) (f : Naive ρ) :
    List (List UInt8) → Option Error → Prop where
  | stop (h : Naive.readMore X S s = .ret (.ok 0, f)) : NextOf X S s f [] none
  | fail {e : Error} (h : Naive.readMore X S s = .ret (.error e, f)) : NextOf X S s f [] (some e)
  | block {s' : Naive ρ} {n : Nat} {bs : List (List UInt8)} {o : Option Error}
    (h : Naive.readMore X S s = .ret (.ok n, s')) (hn : n ≠ 0)
    (hd : Drains X S { s' with pending := [] } bs o f) : NextOf X S s f (s'.pending :: bs) o

variable [LawfulRead ρ]

/-- `read_more` after a step that it goes on from. -/
theorem readMore_next {s s' : Naive ρ} (hp : s.pending = [])
    (h : Naive.readMoreStep X S () s = .ret (.ok (.next ()), s')) :
    Naive.readMore X S s = Naive.readMore X S s' := by
  obtain ⟨hp', -, hu⟩ : Skips s s' := by
    have hw := readMoreStep_ok (X := X) (S := S) hp
    rw [h] at hw
    exact hw
  have hlt : Read.left s'.r + 1 ≤ Read.left s.r := by unfold Used at hu; omega
  have hw := readMore_ok (X := X) (S := S) hp'
  obtain ⟨p, hret, -⟩ := Run.WP_iff.mp hw
  rw [hret]
  unfold Naive.readMore at hret ⊢
  rw [Proc.bind_run, Proc.get_run, Run.ret_bind, Proc.andThen_ok] at hret ⊢
  rw [Proc.loop_next h]
  exact Proc.loop_mono hret hlt

omit [LawfulRead ρ] in
theorem readMore_done {s s' : Naive ρ} {n : Nat}
    (h : Naive.readMoreStep X S () s = .ret (.ok (.done n), s')) :
    Naive.readMore X S s = .ret (.ok n, s') := by
  unfold Naive.readMore
  rw [Proc.bind_run, Proc.get_run, Run.ret_bind, Proc.andThen_ok, Proc.loop_done h]

omit [LawfulRead ρ] in
theorem readMore_error {s s' : Naive ρ} {e : Error}
    (h : Naive.readMoreStep X S () s = .ret (.error e, s')) :
    Naive.readMore X S s = .ret (.error e, s') := by
  unfold Naive.readMore
  rw [Proc.bind_run, Proc.get_run, Run.ret_bind, Proc.andThen_ok, Proc.loop_error h]

theorem Drains.next {s f : Naive ρ} {bs : List (List UInt8)} {o : Option Error}
    (h : Drains X S s bs o f) (hp : s.pending = []) : NextOf X S s f bs o := by
  induction h with
  | stop h => exact .stop (readMore_done h)
  | fail h => exact .fail (readMore_error h)
  | block h hn hd _ => exact .block (readMore_done h) hn hd
  | skip h _ ih =>
    have hw := readMoreStep_ok (X := X) (S := S) hp
    rw [h] at hw
    have he := readMore_next hp h
    cases ih hw.1 with
    | stop h' => exact .stop (he.trans h')
    | fail h' => exact .fail (he.trans h')
    | block h' hn hd => exact .block (he.trans h') hn hd

/-- Every state with nothing to be consumed drains. -/
theorem Drains.total (s : Naive ρ) (hp : s.pending = []) :
    ∃ bs o f, Drains X S s bs o f := by
  induction hl : Read.left s.r using Nat.strongRecOn generalizing s with
  | _ n ih =>
    subst hl
    rcases Proc.WP_iff.mp (readMoreStep_ok (X := X) (S := S) hp) with
      ⟨flow, s', h, hq⟩ | ⟨e, s', h, -⟩
    · match flow, hq with
      | .next _, ⟨hp', _, hu⟩ =>
        obtain ⟨bs, o, f, hd⟩ := ih _ (by unfold Used at hu; omega) s' hp' rfl
        exact ⟨bs, o, f, .skip h hd⟩
      | .done 0, _ => exact ⟨[], none, s', .stop h⟩
      | .done (n + 1), ⟨_, hu, _, _⟩ =>
        obtain ⟨bs, o, f, hd⟩ := ih (Read.left s'.r) (by unfold Used at hu; omega)
          { s' with pending := [] } rfl rfl
        exact ⟨_, o, f, .block h (Nat.succ_ne_zero n) hd⟩
    · exact ⟨[], some e, s', .fail h⟩

/-- The bytes `D` are left at `s`, and then the stream ends with `o`. -/
def Left (X : XxHash32) (S : Settings) (s : Naive ρ) (D : List UInt8) (o : Option Error)
    (f : Naive ρ) : Prop :=
  ∃ bs, Drains X S { s with pending := [] } bs o f ∧ D = s.pending ++ bs.flatten

theorem Left.total (s : Naive ρ) : ∃ D o f, Left X S s D o f := by
  obtain ⟨bs, o, f, h⟩ := Drains.total (X := X) (S := S) { s with pending := [] } rfl
  exact ⟨_, o, f, bs, h, rfl⟩

omit [LawfulRead ρ] in
/-- Some of the pending bytes are taken. -/
theorem Left.drop {s f : Naive ρ} {D : List UInt8} {o : Option Error} (h : Left X S s D o f)
    (n : Nat) :
    ∃ D', D = s.pending.take n ++ D' ∧ Left X S { s with pending := s.pending.drop n } D' o f := by
  obtain ⟨bs, hd, rfl⟩ := h
  exact ⟨s.pending.drop n ++ bs.flatten, by rw [← List.append_assoc, List.take_append_drop],
    bs, hd, rfl⟩

/-- A stream of a reader that is never interrupted does not end so. -/
theorem Drains.calm (hcalm : Calm ρ) {s f : Naive ρ} {bs : List (List UInt8)} {o : Option Error}
    (h : Drains X S s bs o f) (hp : s.pending = []) : ∀ e, o = some e → e.kind ≠ .interrupted := by
  induction h with
  | stop => nofun
  | @fail s f e h =>
    have hw := readMoreStep_ok (X := X) (S := S) hp
    rw [h] at hw
    obtain ⟨-, -, -, -, hk⟩ := hw
    rintro _ ⟨⟩ hk'
    exact (hk hk').2 hcalm
  | skip h _ ih =>
    have hw := readMoreStep_ok (X := X) (S := S) hp
    rw [h] at hw
    exact ih hw.1
  | block _ _ _ ih => exact ih rfl

/-! ## The calls -/

section

variable {s s' : Naive ρ} {n : Nat} {e : Error}

omit [LawfulRead ρ] in
theorem read_pending (hp : s.pending ≠ []) (len : Nat) :
    Naive.read X S len s =
      .ret (.ok (s.pending.take len), { s with pending := s.pending.drop len }) := by
  rw [Naive.read, Proc.loop_done]
  simp only [Proc.bind_run, Proc.get_run, Run.ret_bind, Proc.andThen_ok, Proc.ite_run, if_pos hp,
    Proc.modify_run, Proc.pure_run]

omit [LawfulRead ρ] in
theorem read_stop (hp : s.pending = []) (h : Naive.readMore X S s = .ret (.ok 0, s')) (len : Nat) :
    Naive.read X S len s = .ret (.ok [], s') := by
  rw [Naive.read, Proc.loop_done]
  simp only [Proc.bind_run, Proc.get_run, Run.ret_bind, Proc.andThen_ok, Proc.ite_run,
    if_neg (not_not.mpr hp), h, if_true, Proc.pure_run]

omit [LawfulRead ρ] in
theorem read_fail (hp : s.pending = []) (h : Naive.readMore X S s = .ret (.error e, s'))
    (len : Nat) : Naive.read X S len s = .ret (.error e, s') := by
  rw [Naive.read, Proc.loop_error]
  simp only [Proc.bind_run, Proc.get_run, Run.ret_bind, Proc.andThen_ok, Proc.ite_run,
    if_neg (not_not.mpr hp), h, Proc.andThen_error]

omit [LawfulRead ρ] in
theorem read_block (hp : s.pending = []) (h : Naive.readMore X S s = .ret (.ok n, s')) (hn : n ≠ 0)
    (hp' : s'.pending ≠ []) (len : Nat) : Naive.read X S len s =
      .ret (.ok (s'.pending.take len), { s' with pending := s'.pending.drop len }) := by
  refine Eq.trans (Proc.loop_next (show _ = Run.ret (Except.ok (Run.Flow.next ()), s') from ?_))
    (Proc.loop_done ?_)
  · simp only [Proc.bind_run, Proc.get_run, Run.ret_bind, Proc.andThen_ok, Proc.ite_run,
      if_neg (not_not.mpr hp), h, if_neg hn, Proc.pure_run]
  · simp only [Proc.bind_run, Proc.get_run, Run.ret_bind, Proc.andThen_ok, Proc.ite_run, if_pos hp',
      Proc.modify_run, Proc.pure_run]

omit [LawfulRead ρ] in
theorem fillBuf_pending (hp : s.pending ≠ []) : Naive.fillBuf X S s = .ret (.ok s.pending, s) := by
  simp only [Naive.fillBuf, Proc.bind_run, Proc.get_run, Run.ret_bind, Proc.andThen_ok, Proc.ite_run,
    if_neg hp, Proc.pure_run]

omit [LawfulRead ρ] in
theorem fillBuf_more (hp : s.pending = []) (h : Naive.readMore X S s = .ret (.ok n, s')) :
    Naive.fillBuf X S s = .ret (.ok s'.pending, s') := by
  simp only [Naive.fillBuf, Proc.bind_run, Proc.get_run, Run.ret_bind, Proc.andThen_ok, Proc.ite_run,
    if_pos hp, h, Proc.pure_run]

omit [LawfulRead ρ] in
theorem fillBuf_fail (hp : s.pending = []) (h : Naive.readMore X S s = .ret (.error e, s')) :
    Naive.fillBuf X S s = .ret (.error e, s') := by
  simp only [Naive.fillBuf, Proc.bind_run, Proc.get_run, Run.ret_bind, Proc.andThen_ok, Proc.ite_run,
    if_pos hp, h, Proc.andThen_error]

omit [LawfulRead ρ] in
theorem call_fillBuf {x : Except Error (List UInt8)} (h : Naive.fillBuf X S s = .ret (x, s')) :
    (Spec.naive X S).call s .fillBuf = .ret (Spec.Calls.reply x, s') := by
  simp only [Spec.Calls.call, Spec.naive, h, Run.ret_bind, Run.pure_eq]

omit [LawfulRead ρ] in
theorem call_consume {amt : Nat} (h : amt ≤ s.pending.length) :
    (Spec.naive X S).call s (.consume amt) =
      .ret (⟨[], none⟩, { s with pending := s.pending.drop amt }) := by
  simp only [Spec.Calls.call, Spec.naive, Naive.consume, Proc.bind_run, Proc.get_run, Run.ret_bind,
    Proc.andThen_ok, Proc.lift_run, Run.assert, if_pos h, Proc.modify_run]
  rfl

omit [LawfulRead ρ] in
theorem More.pending_ne (h : More S s n s') (hn : n ≠ 0) : s'.pending ≠ [] := fun he => by
  have := h.len
  rw [he] at this
  exact hn this.symm

end

omit [LawfulRead ρ] in
theorem readToEndStep_bytes {s s' : Naive ρ} (h : Naive.fillBuf X S s = .ret (.ok s'.pending, s'))
    (hp : s'.pending ≠ []) (buf : List UInt8) :
    Naive.readToEndStep X S buf s =
      .ret (.ok (.next (buf ++ s'.pending)), { s' with pending := [] }) := by
  simp only [Naive.readToEndStep, Proc.bind_run, Proc.attempt_run, h, Run.ret_bind, Proc.andThen_ok]
  cases he : s'.pending with
  | nil => exact absurd he hp
  | cons b bs =>
    simp only [Naive.consume, Proc.bind_run, Proc.get_run, Run.ret_bind, Proc.andThen_ok,
      Proc.lift_run, Run.assert, he, Nat.le_refl, if_true, Proc.modify_run, Proc.pure_run,
      List.drop_length]

omit [LawfulRead ρ] in
theorem readToEndStep_stop {s s' : Naive ρ} (h : Naive.fillBuf X S s = .ret (.ok [], s'))
    (buf : List UInt8) :
    Naive.readToEndStep X S buf s = .ret (.ok (.done (buf, .ok buf.length)), s') := by
  simp only [Naive.readToEndStep, Proc.bind_run, Proc.attempt_run, h, Run.ret_bind, Proc.andThen_ok,
    Proc.pure_run]

omit [LawfulRead ρ] in
theorem readToEndStep_fail {s s' : Naive ρ} {e : Error}
    (h : Naive.fillBuf X S s = .ret (.error e, s')) (buf : List UInt8) :
    Naive.readToEndStep X S buf s =
      .ret (.ok (if e.kind = .interrupted then .next buf else .done (buf, .error e)), s') := by
  simp only [Naive.readToEndStep, Proc.bind_run, Proc.attempt_run, h, Run.ret_bind, Proc.andThen_ok,
    Proc.ite_run, Proc.pure_run]
  split <;> rfl

/-- The result of `read_to_end` after `n` bytes. -/
def toEndResult : Option Error → Nat → Except Error Nat
  | none, n => .ok n
  | some e, _ => .error e

/-! ## What comes -/

/-- What `readMore` comes to, where `A` says what still comes, and `F` how the decoder is left at
the end. It may be interrupted where `P` holds, and then all of it still comes. -/
inductive Next (X : XxHash32) (S : Settings) (A : Naive ρ → List UInt8 → Option Error → Prop)
    (F : Naive ρ → Prop) (P : Prop) (s : Naive ρ) (D : List UInt8) (o : Option Error) : Prop where
  | stop {f : Naive ρ} (h : Naive.readMore X S s = .ret (.ok 0, f)) (hf : F f) (hD : D = []) (ho : o = none)
  | fail {e : Error} {f : Naive ρ} (h : Naive.readMore X S s = .ret (.error e, f)) (hf : F f) (hD : D = [])
    (ho : o = some e)
  | again {e : Error} {s₁ : Naive ρ} (h : Naive.readMore X S s = .ret (.error e, s₁)) (hP : P)
    (hk : e.kind = .interrupted) (ha : A s₁ D o)
  | block {n : Nat} {s₁ : Naive ρ} (h : Naive.readMore X S s = .ret (.ok n, s₁)) (hn : n ≠ 0) (ha : A s₁ D o)

/-- `A s D o`: from `s` on the bytes `D` come, those that are pending first, and then the end `o`. -/
structure Supplies (X : XxHash32) (S : Settings) (A : Naive ρ → List UInt8 → Option Error → Prop)
    (F : Naive ρ → Prop) (P : Prop) : Prop where
  next {s : Naive ρ} {D : List UInt8} {o : Option Error} (h : A s D o) (hp : s.pending = []) :
    Next X S A F P s D o
  drop {s : Naive ρ} {D : List UInt8} {o : Option Error} (h : A s D o) (n : Nat) :
    ∃ D', D = s.pending.take n ++ D' ∧ A { s with pending := s.pending.drop n } D' o

/-- What a call gives: all that comes and the end; or nothing, where it was interrupted; or, where
it does not say how the stream ends, some of what comes. -/
def Serves (A : Naive ρ → List UInt8 → Option Error → Prop) (F : Naive ρ → Prop) (P : Prop) (D : List UInt8)
    (o : Option Error) (taken : List UInt8) (r : Spec.Reply) (ends : Bool) (s' : Naive ρ) : Prop :=
  if ends then (taken = D ∧ r.error = o ∧ F s') ∨ (P ∧ r.interrupted = true ∧ taken = [] ∧ A s' D o)
  else ∃ D', D = taken ++ D' ∧ A s' D' o

section

variable {A : Naive ρ → List UInt8 → Option Error → Prop} {F : Naive ρ → Prop} {P : Prop} {s s' : Naive ρ}
  {D taken : List UInt8} {o : Option Error} {r : Spec.Reply}

omit [Read ρ] [LawfulRead ρ] in
theorem Serves.end (hD : taken = D) (ho : r.error = o) (hf : F s') : Serves A F P D o taken r true s' := by
  rw [Serves, if_pos rfl]
  exact .inl ⟨hD, ho, hf⟩

omit [Read ρ] [LawfulRead ρ] in
theorem Serves.part {D' : List UInt8} (hD : D = taken ++ D') (ha : A s' D' o) :
    Serves A F P D o taken r false s' := by
  rw [Serves, if_neg Bool.false_ne_true]
  exact ⟨D', hD, ha⟩

omit [Read ρ] [LawfulRead ρ] in
theorem Serves.again {e : Error} (hP : P) (hk : e.kind = .interrupted) (ha : A s' D o) :
    Serves A F P D o [] ⟨[], some e⟩ true s' := by
  rw [Serves, if_pos rfl]
  exact .inr ⟨hP, decide_eq_true hk, rfl, ha⟩

theorem call_serves_read (hA : Supplies X S A F P) (h : A s D o) {len : Nat} (hl : len ≠ 0)
    (hcall : (Spec.naive X S).call s (.read len) = .ret (r, s')) :
    Serves A F P D o r.bytes r (Spec.Calls.ends (ρ := ρ) (.read len) r) s' := by
  have taken : ∀ s : Naive ρ, s.pending ≠ [] → A s D o → Serves A F P D o (s.pending.take len)
      ⟨s.pending.take len, none⟩ (Spec.Calls.ends (ρ := ρ) (.read len) ⟨s.pending.take len, none⟩)
      { s with pending := s.pending.drop len } := fun s hp h => by
    have he : (s.pending.take len).isEmpty = false := by
      rw [List.isEmpty_eq_false_iff]
      simp only [ne_eq, List.take_eq_nil_iff, hp, hl, or_self, not_false_iff]
    obtain ⟨D', hD, ha⟩ := hA.drop h len
    simp only [Spec.Calls.ends, he, Option.isSome_none, Bool.and_false, Bool.or_false]
    exact .part hD ha
  simp only [Spec.Calls.call, Spec.naive] at hcall
  by_cases hp : s.pending = []
  · cases hA.next h hp with
    | stop hm hf hD ho =>
      rw [read_stop hp hm] at hcall
      obtain ⟨rfl, rfl⟩ := Prod.mk.inj (Run.ret.inj hcall)
      simp only [Spec.Calls.reply, Spec.Calls.ends, Option.isSome_none, Bool.false_or, List.isEmpty_nil,
        Bool.and_true, bne_iff_ne.mpr hl]
      exact .end hD.symm ho.symm hf
    | fail hm hf hD ho =>
      rw [read_fail hp hm] at hcall
      obtain ⟨rfl, rfl⟩ := Prod.mk.inj (Run.ret.inj hcall)
      exact .end hD.symm ho.symm hf
    | again hm hP hk ha =>
      rw [read_fail hp hm] at hcall
      obtain ⟨rfl, rfl⟩ := Prod.mk.inj (Run.ret.inj hcall)
      exact .again hP hk ha
    | block hm hn ha =>
      have hw := readMore_ok (X := X) (S := S) hp
      rw [hm] at hw
      have hmore : More S _ _ _ := hw
      rw [read_block hp hm hn (hmore.pending_ne hn)] at hcall
      obtain ⟨rfl, rfl⟩ := Prod.mk.inj (Run.ret.inj hcall)
      exact taken _ (hmore.pending_ne hn) ha
  · rw [read_pending hp] at hcall
    obtain ⟨rfl, rfl⟩ := Prod.mk.inj (Run.ret.inj hcall)
    exact taken s hp h

theorem call_serves_fillBuf (hA : Supplies X S A F P) (h : A s D o)
    (hcall : (Spec.naive X S).call s .fillBuf = .ret (r, s')) :
    Serves A F P D o [] r (Spec.Calls.ends (ρ := ρ) .fillBuf r) s' := by
  have stays : ∀ s : Naive ρ, s.pending ≠ [] → A s D o → Serves A F P D o [] ⟨s.pending, none⟩
      (Spec.Calls.ends (ρ := ρ) .fillBuf ⟨s.pending, none⟩) s := fun s hp h => by
    have he : s.pending.isEmpty = false := by rwa [List.isEmpty_eq_false_iff]
    simp only [Spec.Calls.ends, he, Option.isSome_none, Bool.or_false]
    exact .part rfl h
  simp only [Spec.Calls.call, Spec.naive] at hcall
  by_cases hp : s.pending = []
  · have hw := readMore_ok (X := X) (S := S) hp
    cases hA.next h hp with
    | stop hm hf hD ho =>
      rw [hm] at hw
      have he := List.length_eq_zero_iff.mp hw.len
      rw [fillBuf_more hp hm, he] at hcall
      obtain ⟨rfl, rfl⟩ := Prod.mk.inj (Run.ret.inj hcall)
      exact .end hD.symm ho.symm hf
    | fail hm hf hD ho =>
      rw [fillBuf_fail hp hm] at hcall
      obtain ⟨rfl, rfl⟩ := Prod.mk.inj (Run.ret.inj hcall)
      exact .end hD.symm ho.symm hf
    | again hm hP hk ha =>
      rw [fillBuf_fail hp hm] at hcall
      obtain ⟨rfl, rfl⟩ := Prod.mk.inj (Run.ret.inj hcall)
      exact .again hP hk ha
    | block hm hn ha =>
      rw [hm] at hw
      have hmore : More S _ _ _ := hw
      rw [fillBuf_more hp hm] at hcall
      obtain ⟨rfl, rfl⟩ := Prod.mk.inj (Run.ret.inj hcall)
      exact stays _ (hmore.pending_ne hn) ha
  · rw [fillBuf_pending hp] at hcall
    obtain ⟨rfl, rfl⟩ := Prod.mk.inj (Run.ret.inj hcall)
    exact stays s hp h

/-- What `read_to_end` appends; it goes on where it is interrupted. -/
theorem readToEnd_loop (hA : Supplies X S A F P) (ho : ∀ e, o = some e → e.kind ≠ .interrupted) :
    ∀ (n : Nat) (buf : List UInt8) (s : Naive ρ) (D : List UInt8), toEndLeft s < n → A s D o →
      ∃ f, F f ∧ Proc.loop (Naive.readToEndStep X S) n buf s =
        .ret (.ok (buf ++ D, toEndResult o (buf ++ D).length), f)
  | 0, _, _, _, hn, _ => absurd hn (Nat.not_lt_zero _)
  | n + 1, buf, s, D, hn, h => by
    have bytes : ∀ s' : Naive ρ, Naive.fillBuf X S s = .ret (.ok s'.pending, s') → s'.pending ≠ [] →
        Read.left s'.r < n → A s' D o → ∃ f, F f ∧ Proc.loop (Naive.readToEndStep X S) (n + 1) buf s =
          .ret (.ok (buf ++ D, toEndResult o (buf ++ D).length), f) := fun s' hfill hp hn h => by
      obtain ⟨D', rfl, h'⟩ := hA.drop h s'.pending.length
      rw [List.drop_length] at h'
      obtain ⟨f, hf, hloop⟩ := readToEnd_loop hA ho n (buf ++ s'.pending) { s' with pending := [] } D'
        (by rwa [toEndLeft, if_pos rfl, Nat.add_zero]) h'
      refine ⟨f, hf, ?_⟩
      rw [List.take_length, Proc.loop_next (readToEndStep_bytes hfill hp buf), hloop, List.append_assoc]
    unfold toEndLeft at hn
    by_cases hp : s.pending = []
    · rw [if_pos hp] at hn
      have hw := readMore_ok (X := X) (S := S) hp
      cases hA.next h hp with
      | stop hm hf hD ho =>
        subst hD ho
        rw [hm] at hw
        have he := List.length_eq_zero_iff.mp hw.len
        rw [Proc.loop_done (readToEndStep_stop (he ▸ fillBuf_more hp hm) buf), List.append_nil, toEndResult]
        exact ⟨_, hf, rfl⟩
      | fail hm hf hD ho' =>
        have hstep := readToEndStep_fail (fillBuf_fail hp hm) buf
        rw [if_neg (ho _ ho')] at hstep
        subst hD ho'
        rw [Proc.loop_done hstep, List.append_nil, toEndResult]
        exact ⟨_, hf, rfl⟩
      | @again e s₁ hm _ hk ha =>
        rw [hm] at hw
        obtain ⟨hp₁, -, -, -, hlt⟩ : Broken s e s₁ := hw
        have hlt : Read.left s₁.r < Read.left s.r := (hlt hk).1
        have hstep := readToEndStep_fail (fillBuf_fail hp hm) buf
        rw [if_pos hk] at hstep
        rw [Proc.loop_next hstep]
        refine readToEnd_loop hA ho n buf s₁ D ?_ ha
        rw [toEndLeft, if_pos hp₁]
        omega
      | @block k s₁ hm hne ha =>
        rw [hm] at hw
        have hmore : More S s k s₁ := hw
        have hu : Read.left s₁.r + min k 1 ≤ Read.left s.r := hmore.used
        exact bytes s₁ (fillBuf_more hp hm) (hmore.pending_ne hne) (by omega) ha
    · rw [if_neg hp] at hn
      exact bytes s (fillBuf_pending hp) hp (by omega) h

theorem readToEnd_serves (hA : Supplies X S A F P) (ho : ∀ e, o = some e → e.kind ≠ .interrupted) (h : A s D o) :
    ∃ f, F f ∧ Naive.readToEnd X S s = .ret (.ok (D, toEndResult o D.length), f) := by
  unfold Naive.readToEnd
  rw [Proc.bind_run, Proc.get_run, Run.ret_bind, Proc.andThen_ok]
  refine readToEnd_loop hA ho _ [] s D ?_ h
  unfold toEndLeft
  split <;> omega

omit [LawfulRead ρ] in
theorem call_readToEnd {f : Naive ρ} (h : Naive.readToEnd X S s = .ret (.ok (D, toEndResult o D.length), f)) :
    (Spec.naive X S).call s .readToEnd = .ret (⟨D, o⟩, f) := by
  simp only [Spec.Calls.call, Spec.naive, h, Run.ret_bind]
  cases o <;> rfl

/-- A call gives some of what comes, or all of it and the end. -/
theorem call_serves (hA : Supplies X S A F P) (ho : ∀ e, o = some e → e.kind ≠ .interrupted) (h : A s D o)
    {c : Spec.Call ρ} (hc : c.reads = true) (hcall : (Spec.naive X S).call s c = .ret (r, s')) :
    Serves A F P D o ((Spec.naive X S).taken s c r) r (Spec.Calls.ends c r) s' := by
  cases c with
  | read len => exact call_serves_read hA h (bne_iff_ne.mp hc) hcall
  | fillBuf => exact call_serves_fillBuf hA h hcall
  | consume amt =>
    obtain ⟨D', hD, ha⟩ := hA.drop h amt
    by_cases hle : amt ≤ s.pending.length
    · rw [call_consume hle] at hcall
      obtain ⟨rfl, rfl⟩ := Prod.mk.inj (Run.ret.inj hcall)
      exact .part hD ha
    · simp only [Spec.Calls.call, Spec.naive, Naive.consume, Proc.bind_run, Proc.get_run, Run.ret_bind,
        Proc.andThen_ok, Proc.lift_run, Run.assert, if_neg hle] at hcall
      cases hcall
  | readToEnd =>
    obtain ⟨f, hf, hread⟩ := readToEnd_serves hA ho h
    rw [call_readToEnd hread] at hcall
    obtain ⟨rfl, rfl⟩ := Prod.mk.inj (Run.ret.inj hcall)
    exact .end rfl rfl hf
  | replace r => cases hc

end

/-! ## What is left comes -/

theorem left_supplies (X : XxHash32) (S : Settings) (f : Naive ρ) :
    Supplies X S (fun s D o => Left X S s D o f) (· = f) False where
  next {s D o} h hp := by
    obtain ⟨bs, hd, rfl⟩ := h
    have hs : { s with pending := [] } = s := by rw [← hp]
    rw [hs] at hd
    rw [hp, List.nil_append]
    cases hd.next hp with
    | stop h => exact .stop h rfl rfl rfl
    | fail h => exact .fail h rfl rfl rfl
    | block h hn hd => exact .block h hn ⟨_, hd, rfl⟩
  drop h n := h.drop n

theorem readToEnd_left {s f : Naive ρ} {D : List UInt8} {o : Option Error}
    (ho : ∀ e, o = some e → e.kind ≠ .interrupted) (h : Left X S s D o f) :
    Naive.readToEnd X S s = .ret (.ok (D, toEndResult o D.length), f) := by
  obtain ⟨_, rfl, hread⟩ := readToEnd_serves (left_supplies X S f) ho h
  exact hread

/-! ## Counting -/

/-- From `s` to `s'`, in the steps of which the calls are made, `bytes` are taken
out of the decoder and the blocks `bs` are read, verified, decoded and accepted. -/
inductive Accepts (X : XxHash32) (S : Settings) :
    Naive ρ → List UInt8 → List (List UInt8) → Naive ρ → Prop where
  | refl (s : Naive ρ) : Accepts X S s [] [] s
  | stop {s s' : Naive ρ} (hp : s.pending = [])
    (h : Naive.readMoreStep X S () s = .ret (.ok (.done 0), s')) : Accepts X S s [] [] s'
  | fail {s s' : Naive ρ} {e : Error} (hp : s.pending = [])
    (h : Naive.readMoreStep X S () s = .ret (.error e, s')) : Accepts X S s [] [] s'
  | skip {s s' : Naive ρ} (hp : s.pending = [])
    (h : Naive.readMoreStep X S () s = .ret (.ok (.next ()), s')) : Accepts X S s [] [] s'
  | block {s s' : Naive ρ} {n : Nat} (hp : s.pending = [])
    (h : Naive.readMoreStep X S () s = .ret (.ok (.done n), s')) (hn : n ≠ 0) :
    Accepts X S s [] [s'.pending] s'
  | take (s : Naive ρ) (n : Nat) :
    Accepts X S s (s.pending.take n) [] { s with pending := s.pending.drop n }
  | replace (s : Naive ρ) (r : ρ) : Accepts X S s [] [] { s with r }
  | trans {s s' s'' : Naive ρ} {bytes bytes' : List UInt8} {bs bs' : List (List UInt8)}
    (h : Accepts X S s bytes bs s') (h' : Accepts X S s' bytes' bs' s'') :
    Accepts X S s (bytes ++ bytes') (bs ++ bs') s''

/-- The output counts the blocks that are accepted, and stays within the limit;
they are what is taken, and what is pending. -/
theorem Accepts.counts {s s' : Naive ρ} {bytes : List UInt8} {bs : List (List UInt8)}
    (h : Accepts X S s bytes bs s') :
    s'.output = s.output + bs.flatten.length ∧
      (s.output ≤ S.maxOutput → s'.output ≤ S.maxOutput) ∧
      s.pending ++ bs.flatten = bytes ++ s'.pending := by
  induction h with
  | refl => exact ⟨rfl, id, by rw [List.flatten_nil, List.append_nil, List.nil_append]⟩
  | stop hp h =>
    have hw := readMoreStep_ok (X := X) (S := S) hp
    rw [h] at hw
    have hmore : More S _ 0 _ := hw
    rw [(hmore.stop rfl).2, hp, List.length_eq_zero_iff.mp hmore.len]
    exact ⟨rfl, id, rfl⟩
  | fail hp h =>
    have hw := readMoreStep_ok (X := X) (S := S) hp
    rw [h] at hw
    obtain ⟨hp', -, ho, -⟩ := hw
    rw [ho, hp, hp']
    exact ⟨rfl, id, rfl⟩
  | skip hp h =>
    have hw := readMoreStep_ok (X := X) (S := S) hp
    rw [h] at hw
    obtain ⟨hp', ho, -⟩ := hw
    rw [ho, hp, hp']
    exact ⟨rfl, id, rfl⟩
  | block hp h hn =>
    have hw := readMoreStep_ok (X := X) (S := S) hp
    rw [h] at hw
    have hmore : More S _ _ _ := hw
    have hc := (hmore.counts hn).eq
    rw [hp, List.flatten_singleton, hmore.len]
    exact ⟨hc.1, fun _ => hc.2.2, rfl⟩
  | take s n =>
    refine ⟨rfl, id, ?_⟩
    rw [List.flatten_nil, List.append_nil, List.take_append_drop]
  | replace => exact ⟨rfl, id, by rw [List.flatten_nil, List.append_nil, List.nil_append]⟩
  | @trans s s' s'' bytes bytes' bs bs' _ _ ih ih' =>
    obtain ⟨ho, hl, hb⟩ := ih
    obtain ⟨ho', hl', hb'⟩ := ih'
    refine ⟨?_, fun h => hl' (hl h), ?_⟩
    · rw [ho', ho, List.flatten_append, List.length_append, Nat.add_assoc]
    · rw [List.flatten_append, ← List.append_assoc, hb, List.append_assoc, hb', List.append_assoc]

/-- `bytes` are taken out of the decoder from `s` to `s'`, and all that is decoded
is counted. -/
def Tallies (s : Naive ρ) (bytes : List UInt8) (s' : Naive ρ) : Prop :=
  s'.output + s.pending.length = s.output + bytes.length + s'.pending.length

theorem Accepts.tallies {s s' : Naive ρ} {bytes : List UInt8} {bs : List (List UInt8)}
    (h : Accepts X S s bytes bs s') : Tallies s bytes s' := by
  obtain ⟨ho, -, hb⟩ := h.counts
  have hlen := congrArg List.length hb
  rw [List.length_append, List.length_append] at hlen
  unfold Tallies
  omega

theorem readMore_loop_accepts : ∀ (n : Nat) {s s' : Naive ρ} {x : Except Error Nat},
    s.pending = [] → Proc.loop (Naive.readMoreStep X S) n () s = .ret (x, s') →
      ∃ bs, Accepts X S s [] bs s'
  | 0, _, _, _, _, h => nomatch h
  | n + 1, s, s', x, hp, h => by
    obtain ⟨flow, s₁, hs, hq⟩ | ⟨e, s₁, hs, -⟩ :=
      Proc.WP_iff.mp (readMoreStep_ok (X := X) (S := S) hp)
    · match flow, hq with
      | .next _, hq =>
        rw [Proc.loop_next hs] at h
        obtain ⟨bs, hbs⟩ := readMore_loop_accepts n hq.1 h
        exact ⟨_, .trans (.skip hp hs) hbs⟩
      | .done k, _ =>
        rw [Proc.loop_done hs] at h
        obtain ⟨-, rfl⟩ := Prod.mk.inj (Run.ret.inj h)
        by_cases hk : k = 0
        · subst hk
          exact ⟨_, .stop hp hs⟩
        · exact ⟨_, .block hp hs hk⟩
    · rw [Proc.loop_error hs] at h
      obtain ⟨-, rfl⟩ := Prod.mk.inj (Run.ret.inj h)
      exact ⟨_, .fail hp hs⟩

theorem readMore_accepts {s s' : Naive ρ} {x : Except Error Nat} (hp : s.pending = [])
    (h : Naive.readMore X S s = .ret (x, s')) : ∃ bs, Accepts X S s [] bs s' := by
  unfold Naive.readMore at h
  rw [Proc.bind_run, Proc.get_run, Run.ret_bind, Proc.andThen_ok] at h
  exact readMore_loop_accepts _ hp h

theorem fillBuf_accepts {s s' : Naive ρ} {x : Except Error (List UInt8)}
    (h : Naive.fillBuf X S s = .ret (x, s')) : ∃ bs, Accepts X S s [] bs s' := by
  by_cases hp : s.pending = []
  · obtain ⟨⟨y, s₁⟩, hm, -⟩ := Run.WP_iff.mp (readMore_ok (X := X) (S := S) hp)
    match y with
    | .ok n =>
      rw [fillBuf_more hp hm] at h
      obtain ⟨-, rfl⟩ := Prod.mk.inj (Run.ret.inj h)
      exact readMore_accepts hp hm
    | .error e =>
      rw [fillBuf_fail hp hm] at h
      obtain ⟨-, rfl⟩ := Prod.mk.inj (Run.ret.inj h)
      exact readMore_accepts hp hm
  · rw [fillBuf_pending hp] at h
    obtain ⟨-, rfl⟩ := Prod.mk.inj (Run.ret.inj h)
    exact ⟨[], .refl s⟩

theorem read_accepts {s s' : Naive ρ} {x : Except Error (List UInt8)} {len : Nat}
    (h : Naive.read X S len s = .ret (x, s')) :
    ∃ bs, Accepts X S s (Spec.Calls.reply x).bytes bs s' := by
  by_cases hp : s.pending = []
  · obtain ⟨⟨y, s₁⟩, hm, hq⟩ := Run.WP_iff.mp (readMore_ok (X := X) (S := S) hp)
    obtain ⟨bs, hbs⟩ := readMore_accepts hp hm
    match y, hq with
    | .ok n, hmore =>
      by_cases hn : n = 0
      · subst hn
        rw [read_stop hp hm] at h
        obtain ⟨rfl, rfl⟩ := Prod.mk.inj (Run.ret.inj h)
        exact ⟨bs, hbs⟩
      · have hmore : More S s n s₁ := hmore
        rw [read_block hp hm hn (hmore.pending_ne hn)] at h
        obtain ⟨rfl, rfl⟩ := Prod.mk.inj (Run.ret.inj h)
        exact ⟨_, hbs.trans (.take s₁ len)⟩
    | .error e, _ =>
      rw [read_fail hp hm] at h
      obtain ⟨rfl, rfl⟩ := Prod.mk.inj (Run.ret.inj h)
      exact ⟨bs, hbs⟩
  · rw [read_pending hp] at h
    obtain ⟨rfl, rfl⟩ := Prod.mk.inj (Run.ret.inj h)
    exact ⟨[], .take s len⟩

/-- What an iteration of `read_to_end` appends is taken. -/
theorem readToEndStep_accepts (buf : List UInt8) (s : Naive ρ) :
    ∃ flow s' bytes bs, Naive.readToEndStep X S buf s = .ret (.ok flow, s') ∧
      Accepts X S s bytes bs s' ∧
      (flow = .next (buf ++ bytes) ∨ ∃ res, flow = .done (buf ++ bytes, res)) := by
  obtain ⟨⟨y, s₁⟩, hf, hq⟩ := Run.WP_iff.mp (fillBuf_ok (X := X) (S := S) s)
  obtain ⟨bs, hbs⟩ := fillBuf_accepts hf
  match y, hq with
  | .error e, _ =>
    refine ⟨_, s₁, [], bs, readToEndStep_fail hf buf, hbs, ?_⟩
    rw [List.append_nil]
    split
    · exact .inl rfl
    · exact .inr ⟨_, rfl⟩
  | .ok b, ⟨hb, _⟩ =>
    by_cases he : b = []
    · rw [he] at hf
      exact ⟨_, s₁, [], bs, readToEndStep_stop hf buf, hbs, .inr ⟨_, by rw [List.append_nil]⟩⟩
    · rw [hb] at hf he
      have ht := Accepts.take (X := X) (S := S) s₁ s₁.pending.length
      rw [List.take_length, List.drop_length] at ht
      exact ⟨_, _, _, _, readToEndStep_bytes hf he buf, hbs.trans ht, .inl rfl⟩

theorem readToEnd_accepts : ∀ (n : Nat) (buf : List UInt8) {s s' : Naive ρ}
    {x : Except Error (List UInt8 × Except Error Nat)},
    Proc.loop (Naive.readToEndStep X S) n buf s = .ret (x, s') →
      ∃ bytes res bs, x = .ok (buf ++ bytes, res) ∧ Accepts X S s bytes bs s'
  | 0, _, _, _, _, h => nomatch h
  | n + 1, buf, s, s', x, h => by
    obtain ⟨flow, s₁, bytes, bs, hs, hbs, rfl | ⟨res, rfl⟩⟩ :=
      readToEndStep_accepts (X := X) (S := S) buf s
    · rw [Proc.loop_next hs] at h
      obtain ⟨bytes', res, bs', rfl, hbs'⟩ := readToEnd_accepts n _ h
      exact ⟨bytes ++ bytes', res, _, by rw [List.append_assoc], hbs.trans hbs'⟩
    · rw [Proc.loop_done hs] at h
      obtain ⟨rfl, rfl⟩ := Prod.mk.inj (Run.ret.inj h)
      exact ⟨bytes, res, bs, rfl, hbs⟩

/-- A call is made of such steps, with the bytes that it takes. -/
theorem call_accepts {s s' : Naive ρ} {c : Spec.Call ρ} {r : Spec.Reply}
    (h : (Spec.naive X S).call s c = .ret (r, s')) :
    ∃ bs, Accepts X S s ((Spec.naive X S).taken s c r) bs s' := by
  cases c with
  | read len =>
    obtain ⟨⟨x, s₁⟩, hx, h⟩ := Run.bind_eq_ret.mp h
    obtain ⟨rfl, rfl⟩ := Prod.mk.inj (Run.ret.inj h)
    exact read_accepts hx
  | fillBuf =>
    obtain ⟨⟨x, s₁⟩, hx, h⟩ := Run.bind_eq_ret.mp h
    obtain ⟨rfl, rfl⟩ := Prod.mk.inj (Run.ret.inj h)
    exact fillBuf_accepts hx
  | consume amt =>
    obtain ⟨⟨x, s₁⟩, hx, h⟩ := Run.bind_eq_ret.mp h
    obtain ⟨rfl, rfl⟩ := Prod.mk.inj (Run.ret.inj h)
    simp only [Spec.naive, Naive.consume, Proc.bind_run, Proc.get_run, Run.ret_bind, Proc.andThen_ok,
      Proc.lift_run] at hx
    obtain ⟨y, hy, hx⟩ := Run.bind_eq_ret.mp hx
    obtain ⟨u, -, hy⟩ := Run.bind_eq_ret.mp hy
    obtain rfl := Run.ret.inj hy
    obtain ⟨rfl, rfl⟩ := Prod.mk.inj (Run.ret.inj hx)
    exact ⟨[], .take s amt⟩
  | readToEnd =>
    obtain ⟨⟨x, s₁⟩, hx, h⟩ := Run.bind_eq_ret.mp h
    simp only [Spec.naive, Naive.readToEnd, Proc.bind_run, Proc.get_run, Run.ret_bind,
      Proc.andThen_ok] at hx
    obtain ⟨bytes, res, bs, rfl, hbs⟩ := readToEnd_accepts _ _ hx
    cases res with
    | ok n =>
      obtain ⟨rfl, rfl⟩ := Prod.mk.inj (Run.ret.inj h)
      exact ⟨bs, hbs⟩
    | error e =>
      obtain ⟨rfl, rfl⟩ := Prod.mk.inj (Run.ret.inj h)
      exact ⟨bs, hbs⟩
  | replace r =>
    obtain ⟨rfl, rfl⟩ := Prod.mk.inj (Run.ret.inj h)
    exact ⟨[], .replace s r⟩

theorem call_tallies {s s' : Naive ρ} {c : Spec.Call ρ} {r : Spec.Reply}
    (h : (Spec.naive X S).call s c = .ret (r, s')) :
    Tallies s ((Spec.naive X S).taken s c r) s' :=
  (call_accepts h).choose_spec.tallies

/-- So are calls one after the other. -/
theorem deliver_accepts : ∀ {cs : List (Spec.Call ρ)} {s s' : Naive ρ} {bytes : List UInt8},
    (Spec.naive X S).deliver s cs = .ret (bytes, s') → ∃ bs, Accepts X S s bytes bs s'
  | [], s, _, _, h => by
    obtain ⟨rfl, rfl⟩ := Prod.mk.inj (Run.ret.inj h)
    exact ⟨[], .refl s⟩
  | c :: cs, s, s', bytes, h => by
    obtain ⟨⟨r, s₁⟩, hc, h⟩ := Run.bind_eq_ret.mp h
    obtain ⟨⟨bytes', s₂⟩, hd, h⟩ := Run.bind_eq_ret.mp h
    obtain ⟨rfl, rfl⟩ := Prod.mk.inj (Run.ret.inj h)
    obtain ⟨bs, hbs⟩ := call_accepts hc
    obtain ⟨bs', hbs'⟩ := deliver_accepts hd
    exact ⟨_, hbs.trans hbs'⟩

/-! ## Sessions -/

/-- Any calls take a part of what is left, or all of it if they come to the end. -/
theorem session_left {f : Naive ρ} {o : Option Error}
    (ho : ∀ e, o = some e → e.kind ≠ .interrupted) :
    ∀ {cs : List (Spec.Call ρ)} {s : Naive ρ} {D bytes : List UInt8} {ended : Option (Option Error)},
      Left X S s D o f → (∀ c ∈ cs, c.reads = true) →
      (Spec.naive X S).session s cs = .ret (bytes, ended) →
        match ended with
        | none => bytes <+: D
        | some o' => bytes = D ∧ o' = o
  | [], s, D, bytes, ended, _, _, h => by
    obtain ⟨rfl, rfl⟩ := Prod.mk.inj (Run.ret.inj h)
    exact List.nil_prefix
  | c :: cs, s, D, bytes, ended, hl, hcs, h => by
    obtain ⟨⟨r, s'⟩, hcall, h⟩ := Run.bind_eq_ret.mp h
    have ht := call_serves (left_supplies X S f) ho hl (hcs c (List.mem_cons_self ..)) hcall
    unfold Serves at ht
    dsimp only at h
    by_cases he : Spec.Calls.ends c r = true
    · rw [if_pos he] at h ht
      obtain ⟨rfl, rfl⟩ := Prod.mk.inj (Run.ret.inj h)
      obtain ⟨hD, ho', -⟩ := ht.resolve_right fun h => h.1
      exact ⟨hD, ho'⟩
    · rw [if_neg he] at h ht
      obtain ⟨⟨bytes', ended'⟩, hs, h⟩ := Run.bind_eq_ret.mp h
      obtain ⟨rfl, rfl⟩ := Prod.mk.inj (Run.ret.inj h)
      obtain ⟨D', rfl, hl'⟩ := ht
      have ih := session_left ho hl' (fun c hc => hcs c (List.mem_cons_of_mem _ hc)) hs
      cases ended' with
      | none => exact List.prefix_append_right_inj _ |>.mpr ih
      | some o' => exact ⟨by rw [ih.1], ih.2⟩

end Lz4rip.Proof.Frame
