import Lz4rip.Framework.Proc

/-!
# The same code on two states

`Moves M x`: `M` leads from the state before the code to the one after, however it
ends. `Tandem M S E C x y` relates two runs that may both panic, and of which the
left one may stop early: its state then is as `C` says, and the right one moves on
by `M`. Code that `Respects M R C` does the same on any two states that `R` relates,
up to such a stop.
-/

namespace Lz4rip.Proc

variable {σ τ ε α β ρ : Type}

/-! ## One run -/

/-- `M` leads from the state before the code to the one after. -/
def Moves (M : σ → σ → Prop) (x : Proc σ ε α) : Prop := ∀ s p, x s = .ret p → M s p.2

namespace Moves

variable {M : σ → σ → Prop}

theorem modify {g : σ → σ} (h : ∀ s, M s (g s)) : Moves M (Proc.modify g : Proc σ ε Unit) :=
  fun s _ hx => Run.ret.inj hx ▸ h s

theorem ite {c : Prop} {_ : Decidable c} {x y : Proc σ ε α} (hx : Moves M x) (hy : Moves M y) :
    Moves M (if c then x else y) := by
  split
  · exact hx
  · exact hy

section

variable [Std.Refl M]

theorem pure (a : α) : Moves M (Pure.pure a : Proc σ ε α) := fun _ _ hx => Run.ret.inj hx ▸ Std.Refl.refl _

theorem get : Moves M (Proc.get : Proc σ ε σ) := fun _ _ hx => Run.ret.inj hx ▸ Std.Refl.refl _

theorem throw (e : ε) : Moves M (Proc.throw e : Proc σ ε α) :=
  fun _ _ hx => Run.ret.inj hx ▸ Std.Refl.refl _

theorem ofExcept (x : Except ε α) : Moves M (Proc.ofExcept x : Proc σ ε α) :=
  fun _ _ hx => Run.ret.inj hx ▸ Std.Refl.refl _

theorem lift (x : Run α) : Moves M (Proc.lift x : Proc σ ε α) := fun _ _ hx => by
  rw [lift_run] at hx
  obtain ⟨a, -, ha⟩ := Run.bind_eq_ret.mp hx
  exact Run.ret.inj ha ▸ Std.Refl.refl _

end

section

variable [Trans M M M]

theorem bind {x : Proc σ ε α} {f : α → Proc σ ε β} (hx : Moves M x) (hf : ∀ a, Moves M (f a)) :
    Moves M (x >>= f) := fun s p h => by
  rw [bind_run] at h
  obtain ⟨⟨r, s'⟩, hs', h⟩ := Run.bind_eq_ret.mp h
  cases r with
  | ok a => exact Trans.trans (hx _ _ hs') (hf a _ _ h)
  | error e => exact Run.ret.inj h ▸ hx _ _ hs'

theorem loop {body : β → Proc σ ε (Run.Flow β ρ)} (hb : ∀ b, Moves M (body b)) (n : Nat) (b : β) :
    Moves M (Proc.loop body n b) := fun s p h => by
  induction n generalizing b s with
  | zero => cases h
  | succ n ih =>
    rw [Proc.loop, Run.loop] at h
    obtain ⟨x, hx, h⟩ := Run.bind_eq_ret.mp h
    obtain ⟨⟨r, s'⟩, hs', hx⟩ := Run.bind_eq_ret.mp hx
    have hm : M s s' := hb b _ _ hs'
    rcases r with e | flow
    · obtain rfl := Run.ret.inj hx
      exact Run.ret.inj h ▸ hm
    · rcases flow with b' | r
      · obtain rfl := Run.ret.inj hx
        exact Trans.trans hm (ih b' _ h)
      · obtain rfl := Run.ret.inj hx
        exact Run.ret.inj h ▸ hm

end

end Moves

/-! ## Two runs -/

/-- Both return in step, or neither returns; or the left run stops with an error, in
a state that `C` relates to one that the right run has come to. -/
inductive Tandem (M : τ → τ → Prop) (S : α → σ → β → τ → Prop) (E C : σ → τ → Prop) :
    Run (Except ε α × σ) → Run (Except ε β × τ) → Prop where
  | both {p : Except ε α × σ} {q : Except ε β × τ} (h : Both S E p q) :
    Tandem M S E C (.ret p) (.ret q)
  | panic : Tandem M S E C .panic .panic
  | fuel : Tandem M S E C .fuel .fuel
  | stop {e : ε} {s : σ} {t : τ} {y : Run (Except ε β × τ)} (h : C s t)
    (hy : ∀ p, y = .ret p → M t p.2) : Tandem M S E C (.ret (.error e, s)) y

namespace Tandem

variable {α' β' : Type} {M : τ → τ → Prop} {S : α → σ → β → τ → Prop} {E C : σ → τ → Prop}

theorem ok {a : α} {s : σ} {b : β} {t : τ} (h : S a s b t) :
    Tandem M S E C (.ret (.ok (ε := ε) a, s)) (.ret (.ok b, t)) := .both h

theorem error {e : ε} {s : σ} {t : τ} (h : E s t) :
    Tandem M S E C (.ret (.error e, s)) (.ret (.error e, t)) := .both ⟨rfl, h⟩

theorem mono {S' : α → σ → β → τ → Prop} {x : Run (Except ε α × σ)} {y : Run (Except ε β × τ)}
    (h : Tandem M S E C x y) (hS : ∀ a s b t, S a s b t → S' a s b t) : Tandem M S' E C x y := by
  cases h with
  | both h =>
    rcases h.cases with ⟨a, s, b, t, rfl, rfl, hr⟩ | ⟨e, s, t, rfl, rfl, hr⟩
    · exact .ok (hS _ _ _ _ hr)
    · exact .error hr
  | panic => exact .panic
  | fuel => exact .fuel
  | stop h hy => exact .stop h hy

/-- With what is known of the left run. -/
theorem and_left {Q : α → σ → Prop} {E' : ε → σ → Prop} {P : Prop} {x : Run (Except ε α × σ)}
    {y : Run (Except ε β × τ)} (h : Tandem M S E C x y) (hx : Safe P Q E' x) :
    Tandem M (fun a s b t => S a s b t ∧ Q a s) E C x y := by
  cases h with
  | both h =>
    rcases h.cases with ⟨a, s, b, t, rfl, rfl, hr⟩ | ⟨e, s, t, rfl, rfl, hr⟩
    · exact .ok ⟨hr, hx.of_ret rfl⟩
    · exact .error hr
  | panic => exact .panic
  | fuel => exact .fuel
  | stop h hy => exact .stop h hy

theorem bind [Trans M M M] {S' : α' → σ → β' → τ → Prop} {x : Proc σ ε α} {y : Proc τ ε β}
    {f : α → Proc σ ε α'} {g : β → Proc τ ε β'} {s : σ} {t : τ} (h : Tandem M S E C (x s) (y t))
    (hf : ∀ a s b t, S a s b t → Tandem M S' E C (f a s) (g b t)) (hg : ∀ b, Moves M (g b)) :
    Tandem M S' E C ((x >>= f) s) ((y >>= g) t) := by
  rw [bind_run, bind_run]
  generalize x s = u at h
  generalize y t = v at h
  cases h with
  | both h =>
    rcases h.cases with ⟨a, s, b, t, rfl, rfl, hr⟩ | ⟨e, s, t, rfl, rfl, hr⟩
    · exact hf _ _ _ _ hr
    · exact .error hr
  | panic => exact .panic
  | fuel => exact .fuel
  | stop h hy =>
    refine .stop h fun p hp => ?_
    obtain ⟨⟨r, t'⟩, hv, hp⟩ := Run.bind_eq_ret.mp hp
    cases r with
    | ok b => exact Trans.trans (hy _ hv) (hg b _ _ hp)
    | error e => exact Run.ret.inj hp ▸ hy _ hv

theorem get {f : σ → Proc σ ε α} {g : τ → Proc τ ε β} {s : σ} {t : τ}
    (h : Tandem M S E C (f s s) (g t t)) : Tandem M S E C ((Proc.get >>= f) s) ((Proc.get >>= g) t) := h

theorem modify {g : σ → σ} {g' : τ → τ} {f : Unit → Proc σ ε α} {f' : Unit → Proc τ ε β} {s : σ} {t : τ}
    (h : Tandem M S E C (f () (g s)) (f' () (g' t))) :
    Tandem M S E C ((Proc.modify g >>= f) s) ((Proc.modify g' >>= f') t) := h

/-- Code that does not touch the state. -/
theorem lift {x : Run α} {f : α → Proc σ ε α'} {g : α → Proc τ ε β'} {S' : α' → σ → β' → τ → Prop}
    {s : σ} {t : τ} (h : ∀ a, x = .ret a → Tandem M S' E C (f a s) (g a t)) :
    Tandem M S' E C ((Proc.lift x >>= f) s) ((Proc.lift x >>= g) t) := by
  rw [bind_run, bind_run, lift_run, lift_run]
  cases hx : x with
  | ret a => exact h a hx
  | panic => exact .panic
  | fuel => exact .fuel

/-- Code that does not touch the state, and returns on both sides. -/
theorem liftTo {α₁ β₁ : Type} {x : Run α₁} {y : Run β₁} {a : α₁} {b : β₁} {f : α₁ → Proc σ ε α}
    {g : β₁ → Proc τ ε β} {s : σ} {t : τ} (hx : x = .ret a) (hy : y = .ret b)
    (h : Tandem M S E C (f a s) (g b t)) :
    Tandem M S E C ((Proc.lift x >>= f) s) ((Proc.lift y >>= g) t) := by
  subst hx hy
  exact h

theorem ite {c : Prop} {_ : Decidable c} {x x' : Proc σ ε α} {y y' : Proc τ ε β} {s : σ} {t : τ}
    (ht : c → Tandem M S E C (x s) (y t)) (hf : ¬ c → Tandem M S E C (x' s) (y' t)) :
    Tandem M S E C ((if c then x else x') s) ((if c then y else y') t) := by
  split
  · exact ht ‹_›
  · exact hf ‹_›

theorem iteIff {c c' : Prop} {_ : Decidable c} {_ : Decidable c'} {x x' : Proc σ ε α} {y y' : Proc τ ε β}
    {s : σ} {t : τ} (hc : c ↔ c') (ht : c → Tandem M S E C (x s) (y t))
    (hf : ¬ c → Tandem M S E C (x' s) (y' t)) :
    Tandem M S E C ((if c then x else x') s) ((if c' then y else y') t) := by
  by_cases h : c
  · rw [if_pos h, if_pos (hc.mp h)]
    exact ht h
  · rw [if_neg h, if_neg (mt hc.mpr h)]
    exact hf h

/-- Two loops in step. -/
theorem loop [Trans M M M] {ρ' : Type} {S : ρ → σ → ρ' → τ → Prop}
    {body : β → Proc σ ε (Run.Flow β ρ)} {body' : β' → Proc τ ε (Run.Flow β' ρ')}
    (I : β → σ → β' → τ → Prop)
    (hbody : ∀ b s b' t, I b s b' t → Tandem M (IterBoth I S) E C (body b s) (body' b' t))
    (hm : ∀ b, Moves M (body' b)) :
    ∀ (n : Nat) (b : β) (s : σ) (b' : β') (t : τ), I b s b' t →
      Tandem M S E C (Proc.loop body n b s) (Proc.loop body' n b' t)
  | 0, _, _, _, _, _ => .fuel
  | n + 1, b, s, b', t, hI => by
    have h := hbody b s b' t hI
    generalize hx : body b s = u at h
    generalize hy : body' b' t = v at h
    cases h with
    | both h =>
      rcases h.cases with ⟨a, s', c, t', rfl, rfl, hr⟩ | ⟨e, s', t', rfl, rfl, hr⟩
      · rcases hr.cases with ⟨d, d', rfl, rfl, hI'⟩ | ⟨r, r', rfl, rfl, hS⟩
        · rw [loop_next hx, loop_next hy]
          exact loop I hbody hm n d s' d' t' hI'
        · rw [loop_done hx, loop_done hy]
          exact .ok hS
      · rw [loop_error hx, loop_error hy]
        exact .error hr
    | panic =>
      simp only [Proc.loop, Run.loop, hx, hy, Run.panic_bind]
      exact .panic
    | fuel =>
      simp only [Proc.loop, Run.loop, hx, hy, Run.fuel_bind]
      exact .fuel
    | stop h hmove =>
      rw [loop_error hx]
      refine .stop h fun p hp => ?_
      rw [Proc.loop, Run.loop] at hp
      obtain ⟨z, hz, hp⟩ := Run.bind_eq_ret.mp hp
      obtain ⟨⟨r, t'⟩, hv, hz⟩ := Run.bind_eq_ret.mp hz
      have ht := hmove _ (hy.symm.trans hv)
      rcases r with e | flow
      · obtain rfl := Run.ret.inj hz
        exact Run.ret.inj hp ▸ ht
      · rcases flow with d | r
        · obtain rfl := Run.ret.inj hz
          exact Trans.trans ht (Moves.loop hm n d _ _ hp)
        · obtain rfl := Run.ret.inj hz
          exact Run.ret.inj hp ▸ ht

end Tandem

/-! ## Code that does the same -/

/-- Run on states that `R` relates, the code gives the same value or error, in states
that `R` relates, unless the left run stops. -/
structure Respects (M R C : σ → σ → Prop) (x : Proc σ ε α) : Prop where
  moves : Moves M x
  tandem : ∀ {s t}, R s t → Tandem M (fun a s b t => a = b ∧ R s t) R C (x s) (x t)

namespace Respects

variable {M R C : σ → σ → Prop}

theorem modify {g : σ → σ} (hm : ∀ s, M s (g s)) (hr : ∀ {s t}, R s t → R (g s) (g t)) :
    Respects M R C (Proc.modify g : Proc σ ε Unit) :=
  ⟨.modify hm, fun h => .ok ⟨rfl, hr h⟩⟩

theorem ite {c : Prop} {_ : Decidable c} {x y : Proc σ ε α} (hx : Respects M R C x)
    (hy : Respects M R C y) : Respects M R C (if c then x else y) := by
  split
  · exact hx
  · exact hy

section

variable [Std.Refl M]

theorem pure (a : α) : Respects M R C (Pure.pure a : Proc σ ε α) := ⟨.pure a, fun h => .ok ⟨rfl, h⟩⟩

theorem throw (e : ε) : Respects M R C (Proc.throw e : Proc σ ε α) := ⟨.throw e, fun h => .error h⟩

theorem ofExcept (x : Except ε α) : Respects M R C (Proc.ofExcept x : Proc σ ε α) :=
  ⟨.ofExcept x, fun h => by
    cases x with
    | ok a => exact .ok ⟨rfl, h⟩
    | error e => exact .error h⟩

theorem lift (x : Run α) : Respects M R C (Proc.lift x : Proc σ ε α) :=
  ⟨.lift x, fun h => by
    rw [lift_run, lift_run]
    cases x with
    | ret a => exact .ok ⟨rfl, h⟩
    | panic => exact .panic
    | fuel => exact .fuel⟩

end

variable [Trans M M M]

theorem bind {x : Proc σ ε α} {f : α → Proc σ ε β} (hx : Respects M R C x)
    (hf : ∀ a, Respects M R C (f a)) : Respects M R C (x >>= f) :=
  ⟨hx.moves.bind fun a => (hf a).moves, fun h =>
    (hx.tandem h).bind (fun a _ _ _ ⟨hab, h'⟩ => hab ▸ (hf a).tandem h') fun b => (hf b).moves⟩

theorem loop {body : β → Proc σ ε (Run.Flow β ρ)} (hb : ∀ b, Respects M R C (body b)) (n : Nat) (b : β) :
    Respects M R C (Proc.loop body n b) := by
  refine ⟨.loop (fun b => (hb b).moves) n b, fun {s t} h => ?_⟩
  refine Tandem.loop (fun b s b' t => b = b' ∧ R s t) ?_ (fun b => (hb b).moves) n b s b t ⟨rfl, h⟩
  rintro b s _ t ⟨rfl, h⟩
  refine ((hb b).tandem h).mono fun flow s _ t ⟨he, h⟩ => ?_
  subst he
  cases flow with
  | next b => exact ⟨rfl, h⟩
  | done r => exact ⟨rfl, h⟩

/-- What comes after `get` takes from the state only what `R` makes equal. -/
theorem get [Std.Refl M] {f : σ → Proc σ ε α} (hf : ∀ s, Respects M R C (f s))
    (h : ∀ {s t}, R s t → f t = f s) : Respects M R C (Proc.get >>= f) :=
  ⟨Moves.get.bind fun s => (hf s).moves, fun {s t} hst => by
    rw [bind_run, bind_run, get_run, get_run, Run.ret_bind, Run.ret_bind, andThen_ok, andThen_ok,
      h hst]
    exact (hf s).tandem hst⟩

end Respects

end Lz4rip.Proc
