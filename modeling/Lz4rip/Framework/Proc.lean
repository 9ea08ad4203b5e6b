import Lz4rip.Framework.Sim

/-!
# Code that works on a state and can fail

`Proc σ ε α` is code that works on a state `σ` and gives a value or an error
(`?`), unless it panics. An error keeps the state that it was met in. `bind_run`
and its like run the code one step at a time; `Proc.loop` is a loop whose body
may fail, with the rules of `Run.loop`. `WP Q E x` is total correctness, with
`Q` of the value and `E` of the error. `Safe P Q E x` leaves room for a panic, of
which `P` is the reason.

`Refines S E x y` is total correctness of two runs at once: both return, with
values related by `S`, or with the same error in states related by `E`. It has a
rule for running both one step further (`Refines.bind`), and one for two loops
in step (`Refines.loop`). `Upto B` lets the left run stop with an error in `B`.
-/

namespace Lz4rip

/-- Code on a state `σ` that returns an `α` or fails with an `ε`. -/
def Proc (σ ε α : Type) := σ → Run (Except ε α × σ)

namespace Proc

variable {σ τ ε α β ρ : Type}

/-- `f` goes on from a value; an error is the result. -/
def andThen (f : α → Proc σ ε β) : Except ε α × σ → Run (Except ε β × σ)
  | (.ok a, s) => f a s
  | (.error e, s) => .ret (.error e, s)

instance : Monad (Proc σ ε) where
  pure a := fun s => .ret (.ok a, s)
  bind x f := fun s => Run.bind (x s) (andThen f)

def get : Proc σ ε σ := fun s => .ret (.ok s, s)
def modify (f : σ → σ) : Proc σ ε Unit := fun s => .ret (.ok (), f s)
def throw (e : ε) : Proc σ ε α := fun s => .ret (.error e, s)

/-- Code that does not touch the state. -/
def lift (x : Run α) : Proc σ ε α := fun s => x.bind fun a => .ret (.ok a, s)

/-- `x?`. -/
def ofExcept (x : Except ε α) : Proc σ ε α := fun s => .ret (x, s)

/-- `if c { return Err(e) }`. -/
def refuse (c : Prop) [Decidable c] (e : ε) : Proc σ ε Unit :=
  fun s => .ret (if c then .error e else .ok (), s)

/-- The result of `x`, an error too, as a value. -/
def attempt (x : Proc σ ε α) : Proc σ ε (Except ε α) :=
  fun s => (x s).bind fun (r, s') => .ret (.ok r, s')

@[simp] theorem andThen_ok (f : α → Proc σ ε β) (a : α) (s : σ) : andThen f (.ok a, s) = f a s := rfl

@[simp] theorem andThen_error (f : α → Proc σ ε β) (e : ε) (s : σ) :
    andThen f (.error e, s) = .ret (.error e, s) := rfl

@[simp] theorem pure_run (a : α) (s : σ) : (pure a : Proc σ ε α) s = .ret (.ok a, s) := rfl

@[simp] theorem bind_run (x : Proc σ ε α) (f : α → Proc σ ε β) (s : σ) :
    (x >>= f) s = x s >>= andThen f := rfl

instance : LawfulMonad (Proc σ ε) :=
  LawfulMonad.mk' (Proc σ ε)
    (fun x => funext fun s => by
      show (x >>= fun a => pure (id a)) s = x s
      rw [bind_run]
      match x s with
      | .ret (.ok _, _) => rfl
      | .ret (.error _, _) => rfl
      | .panic => rfl
      | .fuel => rfl)
    (fun _ _ => rfl)
    (fun x f g => funext fun s => by
      rw [bind_run, bind_run, bind_run]
      match x s with
      | .ret (.ok _, _) => rfl
      | .ret (.error _, _) => rfl
      | .panic => rfl
      | .fuel => rfl)

@[simp] theorem get_run (s : σ) : (get : Proc σ ε σ) s = .ret (.ok s, s) := rfl

@[simp] theorem modify_run (f : σ → σ) (s : σ) :
    (modify f : Proc σ ε Unit) s = .ret (.ok (), f s) := rfl

@[simp] theorem throw_run (e : ε) (s : σ) : (throw e : Proc σ ε α) s = .ret (.error e, s) := rfl

@[simp] theorem lift_run (x : Run α) (s : σ) :
    (lift x : Proc σ ε α) s = x >>= fun a => .ret (.ok a, s) := rfl

@[simp] theorem ofExcept_run (x : Except ε α) (s : σ) :
    (ofExcept x : Proc σ ε α) s = .ret (x, s) := rfl

@[simp] theorem refuse_run (c : Prop) [Decidable c] (e : ε) (s : σ) :
    (refuse c e : Proc σ ε Unit) s = .ret (if c then .error e else .ok (), s) := rfl

@[simp] theorem attempt_run (x : Proc σ ε α) (s : σ) :
    (attempt x) s = x s >>= fun p => .ret (.ok p.1, p.2) := rfl

@[simp] theorem ite_run (c : Prop) [Decidable c] (x y : Proc σ ε α) (s : σ) :
    (if c then x else y) s = if c then x s else y s := by
  split <;> rfl

/-- `loop { body }`, for at most `n` iterations. -/
def loop (body : β → Proc σ ε (Run.Flow β ρ)) (n : Nat) (b : β) : Proc σ ε ρ := fun s =>
  Run.loop (fun (b, s) => body b s >>= fun
    | (.ok (.next b'), s') => .ret (.next (b', s'))
    | (.ok (.done r), s') => .ret (.done (.ok r, s'))
    | (.error e, s') => .ret (.done (.error e, s'))) n (b, s)

section

variable {body : β → Proc σ ε (Run.Flow β ρ)} {n : Nat} {b : β} {s s' : σ}

theorem loop_next {b' : β} (h : body b s = .ret (.ok (.next b'), s')) :
    loop body (n + 1) b s = loop body n b' s' := by
  simp only [loop, Run.loop, h, Run.ret_bind]

theorem loop_done {r : ρ} (h : body b s = .ret (.ok (.done r), s')) :
    loop body (n + 1) b s = .ret (.ok r, s') := by
  simp only [loop, Run.loop, h, Run.ret_bind]

theorem loop_error {e : ε} (h : body b s = .ret (.error e, s')) :
    loop body (n + 1) b s = .ret (.error e, s') := by
  simp only [loop, Run.loop, h, Run.ret_bind]

theorem loop_mono {m : Nat} {p : Except ε ρ × σ} (h : loop body n b s = .ret p) (hm : n ≤ m) :
    loop body m b s = .ret p :=
  Run.loop_mono h hm

theorem loop_unique {m : Nat} (hn : loop body n b s ≠ .fuel) (hm : loop body m b s ≠ .fuel) :
    loop body n b s = loop body m b s :=
  Run.loop_unique hn hm

theorem loop_panic (h : body b s = .panic) : loop body (n + 1) b s = .panic := by
  simp only [loop, Run.loop, h, Run.panic_bind]

end

/-- The loop started at `b` and `s` starts an iteration at `b'` and `s'`. -/
inductive Visits (body : β → Proc σ ε (Run.Flow β ρ)) (b : β) (s : σ) : β → σ → Prop where
  | start : Visits body b s b s
  | step {b' b'' : β} {s' s'' : σ} (h : Visits body b s b' s')
    (he : body b' s' = .ret (.ok (.next b''), s'')) : Visits body b s b'' s''

/-- What every iteration that goes on keeps holds wherever the loop goes. -/
theorem Visits.invariant {body : β → Proc σ ε (Run.Flow β ρ)} {I : β → σ → Prop}
    (hbody : ∀ {b s b' s'}, I b s → body b s = .ret (.ok (.next b'), s') → I b' s') {b b' : β}
    {s s' : σ} (h : Visits body b s b' s') (hI : I b s) : I b' s' := by
  induction h with
  | start => exact hI
  | step _ he ih => exact hbody ih he

/-- A loop that returns gives what it gives from any state it visits. -/
theorem Visits.loop_eq {body : β → Proc σ ε (Run.Flow β ρ)} {n : Nat} {b b' : β} {s s' : σ}
    {p : Except ε ρ × σ} (h : Visits body b s b' s') (hp : loop body n b s = .ret p) :
    ∃ m, loop body m b' s' = .ret p := by
  induction h with
  | start => exact ⟨n, hp⟩
  | step _ he ih =>
    obtain ⟨m, hm⟩ := ih
    cases m with
    | zero => cases hm
    | succ m => exact ⟨m, (loop_next he).symm.trans hm⟩

/-- A loop that fails where it visits. -/
theorem Visits.error {body : β → Proc σ ε (Run.Flow β ρ)} {n : Nat} {b b' : β} {s s' s'' : σ}
    {p : Except ε ρ × σ} {e : ε} (h : Visits body b s b' s') (hp : loop body n b s = .ret p)
    (he : body b' s' = .ret (.error e, s'')) : loop body n b s = .ret (.error e, s'') := by
  obtain ⟨m, hm⟩ := h.loop_eq hp
  cases m with
  | zero => cases hm
  | succ m => rw [hp, ← hm, loop_error he]

/-- A loop that is left where it visits. -/
theorem Visits.done {body : β → Proc σ ε (Run.Flow β ρ)} {n : Nat} {b b' : β} {s s' s'' : σ}
    {p : Except ε ρ × σ} {r : ρ} (h : Visits body b s b' s') (hp : loop body n b s = .ret p)
    (he : body b' s' = .ret (.ok (.done r), s'')) : loop body n b s = .ret (.ok r, s'') := by
  obtain ⟨m, hm⟩ := h.loop_eq hp
  cases m with
  | zero => cases hm
  | succ m => rw [hp, ← hm, loop_done he]

/-- What one iteration of a loop comes to: it goes on from a state in `I`, or
leaves the loop with a result in `Q`. -/
def IterAll (I : β → σ → Prop) (Q : Except ε ρ × σ → Prop) : Except ε (Run.Flow β ρ) × σ → Prop
  | (.ok (.next b), s) => I b s
  | (.ok (.done r), s) => Q (.ok r, s)
  | (.error e, s) => Q (.error e, s)

/-- A loop whose body keeps `I` and decreases `μ` returns, with a result that
its last iteration gives. -/
theorem WP_loop {body : β → Proc σ ε (Run.Flow β ρ)} (I : β → σ → Prop) (μ : β → σ → Nat)
    {Q : Except ε ρ × σ → Prop}
    (hbody : ∀ b s, I b s →
      (body b s).WP (IterAll (fun b' s' => I b' s' ∧ μ b' s' < μ b s) Q))
    (n : Nat) (b : β) (s : σ) (hI : I b s) (hn : μ b s < n) : (loop body n b s).WP Q := by
  refine Run.WP.loop (fun p => I p.1 p.2) (fun p => μ p.1 p.2) (fun (b, s) hp => ?_) n (b, s) hI hn
  rw [Run.WP_bind]
  refine (hbody b s hp).mono fun r hr => ?_
  match r, hr with
  | (.ok (.next b'), s'), h => exact h
  | (.ok (.done r), s'), h => exact h
  | (.error e, s'), h => exact h

/-! ## One run -/

/-- The code returns: a value that satisfies `Q`, or an error that satisfies `E`. -/
def WP (Q : α → σ → Prop) (E : ε → σ → Prop) (x : Run (Except ε α × σ)) : Prop :=
  x.WP fun
    | (.ok a, s) => Q a s
    | (.error e, s) => E e s

section

variable {Q : α → σ → Prop} {E : ε → σ → Prop}

@[simp] theorem WP_ok {a : α} {s : σ} : WP Q E (.ret (.ok a, s)) = Q a s := rfl

@[simp] theorem WP_error {e : ε} {s : σ} : WP Q E (.ret (.error e, s)) = E e s := rfl

theorem WP_bind {x : Proc σ ε α} {f : α → Proc σ ε β} {Q : β → σ → Prop} {s : σ} :
    WP Q E ((x >>= f) s) ↔ WP (fun a s' => WP Q E (f a s')) E (x s) := by
  rw [bind_run, WP, Run.WP_bind]
  refine ⟨fun h => h.mono fun p hp => ?_, fun h => h.mono fun p hp => ?_⟩
  · match p with
    | (.ok _, _) => exact hp
    | (.error _, _) => exact hp
  · match p with
    | (.ok _, _) => exact hp
    | (.error _, _) => exact hp

theorem WP.mono {Q' : α → σ → Prop} {E' : ε → σ → Prop} {x : Run (Except ε α × σ)} (h : WP Q E x)
    (hQ : ∀ a s, Q a s → Q' a s) (hE : ∀ e s, E e s → E' e s) : WP Q' E' x :=
  Run.WP.mono h fun p hp => by
    match p with
    | (.ok a, s) => exact hQ a s hp
    | (.error e, s) => exact hE e s hp

theorem WP.bind {x : Proc σ ε α} {f : α → Proc σ ε β} {Q' : β → σ → Prop} {s : σ}
    (h : WP Q E (x s)) (hf : ∀ a s', Q a s' → WP Q' E (f a s')) : WP Q' E ((x >>= f) s) :=
  WP_bind.mpr (h.mono hf fun _ _ he => he)

/-- Code that does not fail, where it may. -/
theorem WP.never {x : Run (Except ε α × σ)} (h : WP Q (fun _ _ => False) x) : WP Q E x :=
  h.mono (fun _ _ hq => hq) fun _ _ he => he.elim

@[simp] theorem WP_lift {x : Run α} {s : σ} : WP Q E (lift x s) = x.WP fun a => Q a s := by
  rw [lift_run, WP, Run.WP_bind]
  rfl

@[simp] theorem WP_attempt {x : Proc σ ε α} {Q : Except ε α → σ → Prop} {s : σ} :
    WP Q E (attempt x s) = WP (fun a => Q (.ok a)) (fun e => Q (.error e)) (x s) := by
  rw [attempt_run, WP, WP, Run.WP_bind]
  refine propext ⟨fun h => h.mono fun p hp => ?_, fun h => h.mono fun p hp => ?_⟩
  · match p with
    | (.ok _, _) => exact hp
    | (.error _, _) => exact hp
  · match p with
    | (.ok _, _) => exact hp
    | (.error _, _) => exact hp

theorem WP_ofExcept {x : Except ε α} {s : σ} (hQ : ∀ a, x = .ok a → Q a s)
    (hE : ∀ e, x = .error e → E e s) : WP Q E (ofExcept x s) := by
  cases x with
  | ok a => exact hQ a rfl
  | error e => exact hE e rfl

theorem WP_refuse {c : Prop} {_ : Decidable c} {e : ε} {Q : Unit → σ → Prop} {s : σ}
    (hQ : ¬ c → Q () s) (hE : c → E e s) : WP Q E (refuse c e s) := by
  rw [refuse_run]
  split
  · exact hE ‹_›
  · exact hQ ‹_›

theorem WP_iff {x : Run (Except ε α × σ)} :
    WP Q E x ↔ (∃ a s, x = .ret (.ok a, s) ∧ Q a s) ∨ ∃ e s, x = .ret (.error e, s) ∧ E e s := by
  rw [WP, Run.WP_iff]
  constructor
  · rintro ⟨⟨r, s⟩, hx, h⟩
    cases r with
    | ok a => exact .inl ⟨a, s, hx, h⟩
    | error e => exact .inr ⟨e, s, hx, h⟩
  · rintro (⟨a, s, hx, h⟩ | ⟨e, s, hx, h⟩)
    · exact ⟨_, hx, h⟩
    · exact ⟨_, hx, h⟩

/-- What an iteration that does not fail comes to. -/
def FlowAll {β ρ : Type} (I : β → σ → Prop) (Q : ρ → σ → Prop) : Run.Flow β ρ → σ → Prop
  | .next b, s => I b s
  | .done r, s => Q r s

/-- `WP_loop`, for the values and the errors of the body. -/
theorem WP.loop {Q : ρ → σ → Prop} {body : β → Proc σ ε (Run.Flow β ρ)} (I : β → σ → Prop)
    (μ : β → σ → Nat)
    (hbody : ∀ b s, I b s → WP (FlowAll (fun b' s' => I b' s' ∧ μ b' s' < μ b s) Q) E (body b s))
    (n : Nat) (b : β) (s : σ) (hI : I b s) (hn : μ b s < n) : WP Q E (loop body n b s) :=
  WP_loop I μ (fun b s hI => Run.WP.mono (hbody b s hI) fun p hp => by
    match p, hp with
    | (.ok (.next _), _), hp => exact hp
    | (.ok (.done _), _), hp => exact hp
    | (.error _, _), hp => exact hp) n b s hI hn

end

/-! ## A run that may panic -/

/-- The code returns as `WP` says, or it panics and `P` is why. -/
def Safe (P : Prop) (Q : α → σ → Prop) (E : ε → σ → Prop) (x : Run (Except ε α × σ)) : Prop :=
  WP Q E x ∨ x = .panic ∧ P

section

variable {P : Prop} {Q : α → σ → Prop} {E : ε → σ → Prop}

theorem WP.safe {x : Run (Except ε α × σ)} (h : WP Q E x) : Safe P Q E x := .inl h

/-- What is known of a result that was returned. -/
theorem Safe.of_ret {x : Run (Except ε α × σ)} {p : Except ε α × σ} (h : Safe P Q E x)
    (hx : x = .ret p) : WP Q E (.ret p) := by
  rcases h with h | ⟨hp, -⟩
  · rwa [hx] at h
  · cases hx.symm.trans hp

theorem Safe.ne_fuel {x : Run (Except ε α × σ)} (h : Safe P Q E x) : x ≠ .fuel := by
  rintro rfl
  rcases h with h | ⟨hp, -⟩
  · exact Run.WP_fuel h
  · cases hp

theorem Safe.mono {P' : Prop} {Q' : α → σ → Prop} {E' : ε → σ → Prop} {x : Run (Except ε α × σ)}
    (h : Safe P Q E x) (hP : P → P') (hQ : ∀ a s, Q a s → Q' a s) (hE : ∀ e s, E e s → E' e s) :
    Safe P' Q' E' x :=
  h.imp (fun h => h.mono hQ hE) fun h => ⟨h.1, hP h.2⟩

theorem Safe.bind {x : Proc σ ε α} {f : α → Proc σ ε β} {Q' : β → σ → Prop} {s : σ}
    (h : Safe P Q E (x s)) (hf : ∀ a s', Q a s' → Safe P Q' E (f a s')) :
    Safe P Q' E ((x >>= f) s) := by
  rcases h with h | ⟨hx, hP⟩
  · rw [bind_run]
    rcases WP_iff.mp h with ⟨a, s', hx, hq⟩ | ⟨e, s', hx, he⟩
    · rw [hx]
      exact hf a s' hq
    · rw [hx]
      exact .inl he
  · rw [bind_run, hx]
    exact .inr ⟨rfl, hP⟩

/-- `assert!`, where its failure is why the code may panic. -/
theorem Safe.assert {c : Prop} {_ : Decidable c} {Q : Unit → σ → Prop} {s : σ} (hQ : c → Q () s)
    (hP : ¬ c → P) : Safe P Q E (lift (Run.assert c) s) := by
  rw [lift_run, Run.assert]
  split
  · exact .inl (hQ ‹_›)
  · exact .inr ⟨rfl, hP ‹_›⟩

/-- `WP.loop`, with a body that may panic. -/
theorem Safe.loop {Q : ρ → σ → Prop} {body : β → Proc σ ε (Run.Flow β ρ)} (I : β → σ → Prop)
    (μ : β → σ → Nat)
    (hbody : ∀ b s, I b s →
      Safe P (FlowAll (fun b' s' => I b' s' ∧ μ b' s' < μ b s) Q) E (body b s)) :
    ∀ (n : Nat) (b : β) (s : σ), I b s → μ b s < n → Safe P Q E (loop body n b s)
  | 0, _, _, _, hn => absurd hn (Nat.not_lt_zero _)
  | n + 1, b, s, hI, hn => by
    rcases hbody b s hI with h | ⟨hx, hP⟩
    · rcases WP_iff.mp h with ⟨r, s', hx, hq⟩ | ⟨e, s', hx, he⟩
      · cases r with
        | next b' =>
          rw [loop_next hx]
          exact Safe.loop I μ hbody n b' s' hq.1 (by have := hq.2; omega)
        | done r =>
          rw [loop_done hx]
          exact .inl hq
      · rw [loop_error hx]
        exact .inl he
    · refine .inr ⟨?_, hP⟩
      simp only [Proc.loop, Run.loop, hx, Run.panic_bind]

end

/-! ## Two runs -/

/-- Values related by `S`, or the same error in states related by `E`. -/
def Both (S : α → σ → β → τ → Prop) (E : σ → τ → Prop) :
    Except ε α × σ → Except ε β × τ → Prop
  | (.ok a, s), (.ok b, t) => S a s b t
  | (.error e, s), (.error e', t) => e = e' ∧ E s t
  | _, _ => False

theorem Both.cases {S : α → σ → β → τ → Prop} {E : σ → τ → Prop} {p : Except ε α × σ}
    {q : Except ε β × τ} (h : Both S E p q) :
    (∃ a s b t, p = (.ok a, s) ∧ q = (.ok b, t) ∧ S a s b t) ∨
      ∃ e s t, p = (.error e, s) ∧ q = (.error e, t) ∧ E s t := by
  obtain ⟨x, s⟩ := p
  obtain ⟨y, t⟩ := q
  rcases x with e | a
  · rcases y with e' | b
    · obtain ⟨rfl, h⟩ := h
      exact .inr ⟨e, s, t, rfl, rfl, h⟩
    · cases h
  · rcases y with e' | b
    · cases h
    · exact .inl ⟨a, s, b, t, rfl, rfl, h⟩

/-- Both return, in step. -/
def Refines (S : α → σ → β → τ → Prop) (E : σ → τ → Prop) (x : Run (Except ε α × σ))
    (y : Run (Except ε β × τ)) : Prop :=
  ∃ p q, x = .ret p ∧ y = .ret q ∧ Both S E p q

namespace Refines

variable {α' β' ρ' : Type} {S : α → σ → β → τ → Prop} {E : σ → τ → Prop}

theorem ok {a : α} {s : σ} {b : β} {t : τ} (h : S a s b t) :
    Refines S E (.ret (.ok (ε := ε) a, s)) (.ret (.ok b, t)) := ⟨_, _, rfl, rfl, h⟩

theorem error {e : ε} {s : σ} {t : τ} (h : E s t) :
    Refines S E (.ret (.error e, s)) (.ret (.error e, t)) := ⟨_, _, rfl, rfl, rfl, h⟩

theorem mono {S' : α → σ → β → τ → Prop} {E' : σ → τ → Prop} {x : Run (Except ε α × σ)}
    {y : Run (Except ε β × τ)} (h : Refines S E x y) (hS : ∀ a s b t, S a s b t → S' a s b t)
    (hE : ∀ s t, E s t → E' s t) : Refines S' E' x y := by
  obtain ⟨p, q, hp, hq, h⟩ := h
  refine ⟨p, q, hp, hq, ?_⟩
  rcases h.cases with ⟨a, s, b, t, rfl, rfl, hr⟩ | ⟨e, s, t, rfl, rfl, hr⟩
  · exact hS _ _ _ _ hr
  · exact ⟨rfl, hE _ _ hr⟩

theorem bind {S' : α' → σ → β' → τ → Prop} {E' : σ → τ → Prop} {x : Proc σ ε α}
    {y : Proc τ ε β} {f : α → Proc σ ε α'} {g : β → Proc τ ε β'} {s : σ} {t : τ}
    (h : Refines S E (x s) (y t))
    (hf : ∀ a s b t, S a s b t → Refines S' E' (f a s) (g b t)) (hE : ∀ s t, E s t → E' s t) :
    Refines S' E' ((x >>= f) s) ((y >>= g) t) := by
  obtain ⟨p, q, hp, hq, h⟩ := h
  rw [bind_run, bind_run, hp, hq]
  rcases h.cases with ⟨a, s, b, t, rfl, rfl, hr⟩ | ⟨e, s, t, rfl, rfl, hr⟩
  · exact hf _ _ _ _ hr
  · exact .error (hE _ _ hr)

/-- The left run goes on alone after the right one. -/
theorem thenLeft {S' : α' → σ → β → τ → Prop} {E' : σ → τ → Prop} {x : Proc σ ε α}
    {f : α → Proc σ ε α'} {s : σ} {y : Run (Except ε β × τ)} (h : Refines S E (x s) y)
    (hf : ∀ a s b t, S a s b t → (f a s).WP fun p => ∃ a', p.1 = .ok a' ∧ S' a' p.2 b t)
    (hE : ∀ s t, E s t → E' s t) : Refines S' E' ((x >>= f) s) y := by
  obtain ⟨p, q, hp, hq, h⟩ := h
  rw [bind_run, hp, hq]
  rcases h.cases with ⟨a, s, b, t, rfl, rfl, hr⟩ | ⟨e, s, t, rfl, rfl, hr⟩
  · obtain ⟨⟨r, s'⟩, hx, a', rfl, hS⟩ := Run.WP_iff.mp (hf _ _ _ _ hr)
    rw [Run.ret_bind, andThen_ok, hx]
    exact .ok hS
  · exact .error (hE _ _ hr)

/-- The right run goes on alone, without an error. -/
theorem thenRight {S' : α → σ → β' → τ → Prop} {y : Proc τ ε β} {g : β → β'} {t : τ}
    {x : Run (Except ε α × σ)} (h : Refines S E x (y t))
    (hS : ∀ a s b t, S a s b t → S' a s (g b) t) :
    Refines S' E x ((y >>= fun b => pure (g b)) t) := by
  obtain ⟨p, q, hp, hq, h⟩ := h
  rw [bind_run, hp, hq]
  rcases h.cases with ⟨a, s, b, t, rfl, rfl, hr⟩ | ⟨e, s, t, rfl, rfl, hr⟩
  · exact .ok (hS _ _ _ _ hr)
  · exact .error hr

end Refines

/-- Two iterations in step: both go on from states in `I`, or both leave their
loops with results in `S`. -/
def IterBoth {β β' ρ ρ' : Type} (I : β → σ → β' → τ → Prop) (S : ρ → σ → ρ' → τ → Prop) :
    Run.Flow β ρ → σ → Run.Flow β' ρ' → τ → Prop
  | .next b, s, .next b', t => I b s b' t
  | .done r, s, .done r', t => S r s r' t
  | _, _, _, _ => False

theorem IterBoth.cases {β β' ρ ρ' : Type} {I : β → σ → β' → τ → Prop} {S : ρ → σ → ρ' → τ → Prop}
    {x : Run.Flow β ρ} {s : σ} {y : Run.Flow β' ρ'} {t : τ} (h : IterBoth I S x s y t) :
    (∃ b b', x = .next b ∧ y = .next b' ∧ I b s b' t) ∨
      ∃ r r', x = .done r ∧ y = .done r' ∧ S r s r' t := by
  rcases x with b | r
  · rcases y with b' | r'
    · exact .inl ⟨b, b', rfl, rfl, h⟩
    · cases h
  · rcases y with b' | r'
    · cases h
    · exact .inr ⟨r, r', rfl, rfl, h⟩

/-- Two loops in step, each with more fuel than the measure `μ`. -/
theorem Refines.loop {β' ρ' : Type} {S : ρ → σ → ρ' → τ → Prop} {E : σ → τ → Prop}
    {body : β → Proc σ ε (Run.Flow β ρ)} {body' : β' → Proc τ ε (Run.Flow β' ρ')}
    (I : β → σ → β' → τ → Prop) (μ : β' → τ → Nat)
    (hbody : ∀ b s b' t, I b s b' t →
      Refines (IterBoth (fun c s' c' t' => I c s' c' t' ∧ μ c' t' < μ b' t) S) E
        (body b s) (body' b' t)) :
    ∀ (n m : Nat) (b : β) (s : σ) (b' : β') (t : τ), I b s b' t → μ b' t < n → μ b' t < m →
      Refines S E (loop body n b s) (loop body' m b' t)
  | 0, _, _, _, _, _, _, hn, _ => absurd hn (Nat.not_lt_zero _)
  | _, 0, _, _, _, _, _, _, hm => absurd hm (Nat.not_lt_zero _)
  | n + 1, m + 1, b, s, b', t, hI, hn, hm => by
    obtain ⟨p, q, hp, hq, h⟩ := hbody b s b' t hI
    simp only [Proc.loop, Run.loop, hp, hq, Run.ret_bind]
    rcases h.cases with ⟨x, s', y, t', rfl, rfl, hr⟩ | ⟨e, s', t', rfl, rfl, hr⟩
    · rcases hr.cases with ⟨c, c', rfl, rfl, hI'⟩ | ⟨r, r', rfl, rfl, hS⟩
      · exact Refines.loop I μ hbody n m c s' c' t' hI'.1 (by have := hI'.2; omega)
          (by have := hI'.2; omega)
      · exact .ok hS
    · exact .error hr

/-! ## Two runs, up to an error -/

/-- Both return in step, or the left one fails with an error in `B`. -/
def Upto (B : ε → Prop) (S : α → σ → β → τ → Prop) (E : σ → τ → Prop) (x : Run (Except ε α × σ))
    (y : Run (Except ε β × τ)) : Prop :=
  (∃ e s, x = .ret (.error e, s) ∧ B e) ∨ Refines S E x y

namespace Upto

variable {α' β' : Type} {B : ε → Prop} {S : α → σ → β → τ → Prop} {E : σ → τ → Prop}

theorem ok {a : α} {s : σ} {b : β} {t : τ} (h : S a s b t) :
    Upto B S E (.ret (.ok (ε := ε) a, s)) (.ret (.ok b, t)) := .inr (.ok h)

theorem error {e : ε} {s : σ} {t : τ} (h : E s t) :
    Upto B S E (.ret (.error e, s)) (.ret (.error e, t)) := .inr (.error h)

theorem stop {e : ε} {s : σ} {y : Run (Except ε β × τ)} (h : B e) :
    Upto B S E (.ret (.error e, s)) y := .inl ⟨e, s, rfl, h⟩

theorem mono {S' : α → σ → β → τ → Prop} {E' : σ → τ → Prop} {x : Run (Except ε α × σ)}
    {y : Run (Except ε β × τ)} (h : Upto B S E x y) (hS : ∀ a s b t, S a s b t → S' a s b t)
    (hE : ∀ s t, E s t → E' s t) : Upto B S' E' x y :=
  h.imp id fun h => h.mono hS hE

theorem bind {S' : α' → σ → β' → τ → Prop} {E' : σ → τ → Prop} {x : Proc σ ε α}
    {y : Proc τ ε β} {f : α → Proc σ ε α'} {g : β → Proc τ ε β'} {s : σ} {t : τ}
    (h : Upto B S E (x s) (y t))
    (hf : ∀ a s b t, S a s b t → Upto B S' E' (f a s) (g b t)) (hE : ∀ s t, E s t → E' s t) :
    Upto B S' E' ((x >>= f) s) ((y >>= g) t) := by
  rcases h with ⟨e, s', hx, hB⟩ | ⟨p, q, hp, hq, h⟩
  · rw [bind_run, hx]
    exact stop hB
  · rw [bind_run, bind_run, hp, hq]
    rcases h.cases with ⟨a, s, b, t, rfl, rfl, hr⟩ | ⟨e, s, t, rfl, rfl, hr⟩
    · exact hf _ _ _ _ hr
    · exact error (hE _ _ hr)

theorem same {S : α → σ → α → τ → Prop} (x : Except ε α) {s : σ} {t : τ}
    (hS : ∀ a, x = .ok a → S a s a t) (hE : E s t) :
    Upto B S E (ofExcept x s) (ofExcept x t) := by
  cases x with
  | ok a => exact ok (hS a rfl)
  | error e => exact error hE

theorem refuse {c : Prop} {_ : Decidable c} {e : ε} {S : Unit → σ → Unit → τ → Prop} {s : σ} {t : τ}
    (hS : ¬ c → S () s () t) (hE : E s t) :
    Upto B S E (Proc.refuse c e s) (Proc.refuse c e t) := by
  rw [refuse_run, refuse_run]
  split
  · exact error hE
  · exact ok (hS ‹_›)

theorem ite {c : Prop} {_ : Decidable c} {x x' : Proc σ ε α} {y y' : Proc τ ε β} {s : σ} {t : τ}
    (ht : c → Upto B S E (x s) (y t)) (hf : ¬ c → Upto B S E (x' s) (y' t)) :
    Upto B S E ((if c then x else x') s) ((if c then y else y') t) := by
  split
  · exact ht ‹_›
  · exact hf ‹_›

/-- With what is known of the left run. -/
theorem and_left {Q : α → σ → Prop} {E' : ε → σ → Prop} {x : Run (Except ε α × σ)}
    {y : Run (Except ε β × τ)} (h : Upto B S E x y) (hx : WP Q E' x) :
    Upto B (fun a s b t => S a s b t ∧ Q a s) E x y := by
  refine h.imp id fun ⟨p, q, hp, hq, h⟩ => ?_
  rw [hp] at hx
  refine ⟨p, q, hp, hq, ?_⟩
  match p, q, h, hx with
  | (.ok _, _), (.ok _, _), h, hx => exact ⟨h, hx⟩
  | (.error _, _), (.error _, _), h, _ => exact h

/-- What the left run comes to when the right one returns a value. -/
theorem of_ok {x : Run (Except ε α × σ)} {y : Run (Except ε β × τ)} {b : β} {t : τ}
    (h : Upto B S E x y) (hy : y = .ret (.ok b, t)) :
    (∃ e s, x = .ret (.error e, s) ∧ B e) ∨ ∃ a s, x = .ret (.ok a, s) ∧ S a s b t := by
  subst hy
  rcases h with h | ⟨p, q, hp, hq, h⟩
  · exact .inl h
  · obtain rfl := Run.ret.inj hq
    match p, h with
    | (.ok a, s), h => exact .inr ⟨a, s, hp, h⟩

/-- What the left run comes to when the right one fails. -/
theorem of_error {x : Run (Except ε α × σ)} {y : Run (Except ε β × τ)} {e : ε} {t : τ}
    (h : Upto B S E x y) (hy : y = .ret (.error e, t)) :
    (∃ e s, x = .ret (.error e, s) ∧ B e) ∨ ∃ s, x = .ret (.error e, s) ∧ E s t := by
  subst hy
  rcases h with h | ⟨p, q, hp, hq, h⟩
  · exact .inl h
  · obtain rfl := Run.ret.inj hq
    match p, h with
    | (.error _, s), ⟨rfl, h⟩ => exact .inr ⟨s, hp, h⟩

/-- Two loops in step, each with more fuel than the measure `μ`. -/
theorem loop {β β' ρ ρ' : Type} {S : ρ → σ → ρ' → τ → Prop} {E : σ → τ → Prop}
    {body : β → Proc σ ε (Run.Flow β ρ)} {body' : β' → Proc τ ε (Run.Flow β' ρ')}
    (I : β → σ → β' → τ → Prop) (μ : β' → τ → Nat)
    (hbody : ∀ b s b' t, I b s b' t →
      Upto B (IterBoth (fun c s' c' t' => I c s' c' t' ∧ μ c' t' < μ b' t) S) E
        (body b s) (body' b' t)) :
    ∀ (n m : Nat) (b : β) (s : σ) (b' : β') (t : τ), I b s b' t → μ b' t < n → μ b' t < m →
      Upto B S E (Proc.loop body n b s) (Proc.loop body' m b' t)
  | 0, _, _, _, _, _, _, hn, _ => absurd hn (Nat.not_lt_zero _)
  | _, 0, _, _, _, _, _, _, hm => absurd hm (Nat.not_lt_zero _)
  | n + 1, m + 1, b, s, b', t, hI, hn, hm => by
    rcases hbody b s b' t hI with ⟨e, s', hx, hB⟩ | ⟨p, q, hp, hq, h⟩
    · rw [loop_error hx]
      exact stop hB
    · rcases h.cases with ⟨x, s', y, t', rfl, rfl, hr⟩ | ⟨e, s', t', rfl, rfl, hr⟩
      · rcases hr.cases with ⟨c, c', rfl, rfl, hI'⟩ | ⟨r, r', rfl, rfl, hS⟩
        · rw [loop_next hp, loop_next hq]
          exact loop I μ hbody n m c s' c' t' hI'.1 (by have := hI'.2; omega)
            (by have := hI'.2; omega)
        · rw [loop_done hp, loop_done hq]
          exact ok hS
      · rw [loop_error hp, loop_error hq]
        exact error hr

end Upto

end Proc

end Lz4rip
