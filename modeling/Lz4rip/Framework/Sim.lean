import Lz4rip.Framework.Target

/-!
# Two runs at once

`Post x Q` is partial correctness: what `x` returns, if it does, satisfies `Q`.
`Sim R x y` relates two runs: whatever `x` returns, `y` returns something that
`R` relates to it. `Same R x y` is the symmetric one. They have a rule for each construct of the code; `Sim.loop`
takes a relation on the states of two loops that run in step.
-/

namespace Lz4rip.Run

variable {α β γ δ σ τ ρ π : Type}

/-! ## One run -/

/-- What `x` returns satisfies `Q`. -/
def Post (x : Run α) (Q : α → Prop) : Prop := ∀ a, x = .ret a → Q a

theorem Post.mono {x : Run α} {P Q : α → Prop} (h : Post x P) (hPQ : ∀ a, P a → Q a) : Post x Q :=
  fun a ha => hPQ a (h a ha)

theorem WP.post {x : Run α} {Q : α → Prop} (h : WP x Q) : Post x Q := fun _ ha => h.of_ret ha

@[simp] theorem Post_ret {a : α} {Q : α → Prop} : Post (.ret a) Q = Q a :=
  propext ⟨fun h => h a rfl, fun h _ ha => Run.ret.inj ha ▸ h⟩

@[simp] theorem Post_panic {Q : α → Prop} : Post .panic Q := fun _ h => nomatch h

theorem Post.bind {x : Run α} {f : α → Run β} {P : α → Prop} {Q : β → Prop} (hx : Post x P)
    (hf : ∀ a, P a → Post (f a) Q) : Post (x >>= f) Q := fun b hb => by
  obtain ⟨a, ha, hb⟩ := bind_eq_ret.mp hb
  exact hf a (hx a ha) b hb

theorem Post.any (x : Run α) : Post x fun _ => True := fun _ _ => trivial

theorem Post.ret {a : α} {Q : α → Prop} (h : Q a) : Post (.ret a) Q := Post_ret.mpr h

theorem Post.then {x : Run α} {f : α → Run β} {Q : β → Prop} (hf : ∀ a, Post (f a) Q) :
    Post (x >>= f) Q :=
  (Post.any x).bind fun a _ => hf a

/-- What comes after `x` knows what `x` has returned. -/
theorem Post.same {x : Run α} {f : α → Run β} {Q : β → Prop} (hf : ∀ a, x = .ret a → Post (f a) Q) :
    Post (x >>= f) Q :=
  Post.bind (P := fun a => x = .ret a) (fun _ h => h) hf

theorem Post.ite {c : Prop} {_ : Decidable c} {x y : Run α} {Q : α → Prop} (ht : c → Post x Q)
    (hf : ¬ c → Post y Q) : Post (if c then x else y) Q := by
  split
  · exact ht ‹_›
  · exact hf ‹_›

theorem Post.assert {c : Prop} {_ : Decidable c} : Post (Run.assert c) fun _ => c := by
  unfold Run.assert
  exact .ite (fun h => .ret h) fun _ => Post_panic

theorem Post.sub (a b : Nat) : Post (Run.sub a b) fun r => r = a - b ∧ b ≤ a := by
  unfold Run.sub
  exact .ite (fun h => .ret ⟨rfl, h⟩) fun _ => Post_panic

theorem Post.add (t : Target) (a b : Nat) : Post (t.add a b) (· = a + b) := by
  unfold Target.add
  exact .ite (fun _ => .ret rfl) fun _ => Post_panic

/-- One iteration goes on from a state in `I`, or is done with a result in
`Q`. -/
def FlowAll (I : σ → Prop) (Q : ρ → Prop) : Flow σ ρ → Prop
  | .next s => I s
  | .done r => Q r

/-- What a loop returns, if it does, when its body keeps `I`. -/
theorem Post.loop {body : σ → Run (Flow σ ρ)} (I : σ → Prop) {Q : ρ → Prop}
    (hbody : ∀ s, I s → Post (body s) (FlowAll I Q)) :
    ∀ (n : Nat) (s : σ), I s → Post (Run.loop body n s) Q
  | 0, _, _ => fun _ h => nomatch h
  | n + 1, s, hs => by
    rw [Run.loop]
    refine (hbody s hs).bind fun x hx => ?_
    cases x with
    | next s' => exact Post.loop I hbody n s' hx
    | done r => exact Post_ret.mpr hx

/-! ## Two runs -/

/-- Whatever `x` returns, `y` returns something related to it. -/
def Sim (R : α → β → Prop) (x : Run α) (y : Run β) : Prop :=
  ∀ a, x = .ret a → ∃ b, y = .ret b ∧ R a b

namespace Sim

variable {R : α → β → Prop} {S : γ → δ → Prop} {x : Run α} {y : Run β}

theorem mono {R' : α → β → Prop} (h : Sim R x y) (hR : ∀ a b, R a b → R' a b) : Sim R' x y :=
  fun a ha => by
    obtain ⟨b, hb, hab⟩ := h a ha
    exact ⟨b, hb, hR a b hab⟩

theorem ret {a : α} {b : β} (h : R a b) : Sim R (.ret a) (.ret b) :=
  fun _ ha => ⟨b, rfl, Run.ret.inj ha ▸ h⟩

theorem panic : Sim R (.panic) y := fun _ h => nomatch h

theorem bind {f : α → Run γ} {g : β → Run δ} (h : Sim R x y) (hf : ∀ a b, R a b → Sim S (f a) (g b)) :
    Sim S (x >>= f) (y >>= g) := fun c hc => by
  obtain ⟨a, ha, hc⟩ := bind_eq_ret.mp hc
  obtain ⟨b, hb, hab⟩ := h a ha
  obtain ⟨d, hd, hcd⟩ := hf a b hab c hc
  exact ⟨d, bind_eq_ret.mpr ⟨b, hb, hd⟩, hcd⟩

/-- Both start with the same. -/
theorem same {f : α → Run γ} {g : α → Run δ} (h : ∀ a, x = .ret a → Sim S (f a) (g a)) :
    Sim S (x >>= f) (x >>= g) := fun c hc => by
  obtain ⟨a, ha, hc⟩ := bind_eq_ret.mp hc
  obtain ⟨d, hd, hcd⟩ := h a ha c hc
  exact ⟨d, bind_eq_ret.mpr ⟨a, ha, hd⟩, hcd⟩

theorem ite {c d : Prop} {_ : Decidable c} {_ : Decidable d} {x' : Run α} {y' : Run β} (hc : c ↔ d)
    (ht : c → Sim R x y) (hf : ¬ c → Sim R x' y') :
    Sim R (if c then x else x') (if d then y else y') := by
  by_cases h : c
  · rw [if_pos h, if_pos (hc.mp h)]
    exact ht h
  · rw [if_neg h, if_neg (mt hc.mpr h)]
    exact hf h

theorem assert {c d : Prop} {_ : Decidable c} {_ : Decidable d} {f : Unit → Run γ}
    {g : Unit → Run δ} (hcd : c → d) (h : c → Sim S (f ()) (g ())) :
    Sim S (Run.assert c >>= f) (Run.assert d >>= g) := by
  unfold Run.assert
  by_cases hc : c
  · rw [if_pos hc, if_pos (hcd hc)]
    exact h hc
  · rw [if_neg hc]
    exact panic

theorem sub {a b a' b' : Nat} {f : Nat → Run γ} {g : Nat → Run δ} (hab : b ≤ a → b' ≤ a')
    (h : b ≤ a → Sim S (f (a - b)) (g (a' - b'))) : Sim S (Run.sub a b >>= f) (Run.sub a' b' >>= g) := by
  unfold Run.sub
  by_cases hc : b ≤ a
  · rw [if_pos hc, if_pos (hab hc)]
    exact h hc
  · rw [if_neg hc]
    exact panic

theorem add {t : Target} {a b a' b' : Nat} {f : Nat → Run γ} {g : Nat → Run δ}
    (hab : a + b < t.modulus → a' + b' < t.modulus)
    (h : a + b < t.modulus → Sim S (f (a + b)) (g (a' + b'))) :
    Sim S (t.add a b >>= f) (t.add a' b' >>= g) := by
  unfold Target.add
  by_cases hc : a + b < t.modulus
  · rw [if_pos hc, if_pos (hab hc)]
    exact h hc
  · rw [if_neg hc]
    exact panic

end Sim

/-- Both return, related values, or both panic. -/
def Same (R : α → β → Prop) : Run α → Run β → Prop
  | .ret a, .ret b => R a b
  | .panic, .panic => True
  | _, _ => False

theorem Same.bind {R : α → β → Prop} {S : γ → δ → Prop} {x : Run α} {y : Run β} {f : α → Run γ}
    {g : β → Run δ} (h : Same R x y) (hf : ∀ a b, R a b → Same S (f a) (g b)) :
    Same S (x >>= f) (y >>= g) := by
  match x, y, h with
  | .ret a, .ret b, h => exact hf a b h
  | .panic, .panic, _ => trivial

theorem Same.cases {R : α → β → Prop} {x : Run α} {y : Run β} (h : Same R x y) :
    (x = .panic ∧ y = .panic) ∨ ∃ a b, x = .ret a ∧ y = .ret b ∧ R a b := by
  match x, y, h with
  | .ret a, .ret b, h => exact .inr ⟨a, b, rfl, rfl, h⟩
  | .panic, .panic, _ => exact .inl ⟨rfl, rfl⟩

theorem Same.of_ret {R : α → β → Prop} {x : Run α} {b : β} (h : Same R x (.ret b)) :
    ∃ a, x = .ret a ∧ R a b := by
  match x, h with
  | .ret a, h => exact ⟨a, rfl, h⟩

theorem Same.of_ret_left {R : α → β → Prop} {a : α} {y : Run β} (h : Same R (.ret a) y) :
    ∃ b, y = .ret b ∧ R a b := by
  match y, h with
  | .ret b, h => exact ⟨b, rfl, h⟩

theorem Same.eq {x y : Run α} (h : Same Eq x y) : x = y := by
  match x, y, h with
  | .ret _, .ret _, rfl => rfl
  | .panic, .panic, _ => rfl

/-- Two iterations in step: both go on from related states, or both are done
with related results. -/
def FlowRel (I : σ → τ → Prop) (Q : ρ → π → Prop) : Flow σ ρ → Flow τ π → Prop
  | .next s, .next s' => I s s'
  | .done r, .done r' => Q r r'
  | _, _ => False

/-- Two loops in step. -/
theorem Sim.loop {body : σ → Run (Flow σ ρ)} {body' : τ → Run (Flow τ π)} (I : σ → τ → Prop)
    {Q : ρ → π → Prop} (hbody : ∀ s s', I s s' → Sim (FlowRel I Q) (body s) (body' s')) :
    ∀ (n : Nat) (s : σ) (s' : τ), I s s' → Sim Q (Run.loop body n s) (Run.loop body' n s')
  | 0, _, _, _ => fun _ h => nomatch h
  | n + 1, s, s', hs => by
    rw [Run.loop, Run.loop]
    refine (hbody s s' hs).bind fun x y hxy => ?_
    rcases x with s₁ | r
    · rcases y with s₁' | r'
      · exact Sim.loop I hbody n _ _ hxy
      · cases hxy
    · rcases y with s₁' | r'
      · cases hxy
      · exact Sim.ret hxy

end Lz4rip.Run
