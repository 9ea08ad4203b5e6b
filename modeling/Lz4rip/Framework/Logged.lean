import Lz4rip.Framework.Run

/-!
# Runs that log events

A `Logged ε α` is a run of code written out once more with events of its own: `log`
is what has happened up to the end of the run, or up to its panic, and `run` is the
run itself. `run_bind`, `run_liftM` and `run_loop` forget the events again, so that
the code with events is seen to be the code. `Logs P x` says that every event of `x`
satisfies `P`; `Logs.bind` and `Logs.loop` are its rules.
-/

namespace Lz4rip

/-- A run with the events it has logged. -/
structure Logged (ε α : Type) where
  log : List ε
  run : Run α

namespace Logged

open Run (Flow)

variable {ε α β σ ρ : Type}

def bind (x : Logged ε α) (f : α → Logged ε β) : Logged ε β :=
  match x.run with
  | .ret a => ⟨x.log ++ (f a).log, (f a).run⟩
  | .panic => ⟨x.log, .panic⟩
  | .fuel => ⟨x.log, .fuel⟩

instance : Monad (Logged ε) where
  pure a := ⟨[], .ret a⟩
  bind := bind

instance : MonadLift Run (Logged ε) := ⟨fun x => ⟨[], x⟩⟩

/-- Logs an event. -/
def tick (e : ε) : Logged ε Unit := ⟨[e], .ret ()⟩

/-- `Run.loop` with the events of its body. -/
def loop (body : σ → Logged ε (Flow σ ρ)) : Nat → σ → Logged ε ρ
  | 0, _ => ⟨[], .fuel⟩
  | n + 1, s => body s >>= fun
    | .next s' => loop body n s'
    | .done r => pure r

/-! ## The run -/

@[simp] theorem run_pure (a : α) : (pure a : Logged ε α).run = .ret a := rfl
@[simp] theorem run_liftM (x : Run α) : (liftM x : Logged ε α).run = x := rfl
@[simp] theorem run_tick (e : ε) : (tick e).run = .ret () := rfl

@[simp] theorem run_bind (x : Logged ε α) (f : α → Logged ε β) :
    (x >>= f).run = x.run >>= fun a => (f a).run := by
  change (Logged.bind x f).run = _
  rw [Logged.bind]
  cases x.run <;> rfl

@[simp] theorem run_ite {c : Prop} {_ : Decidable c} (x y : Logged ε α) :
    (if c then x else y).run = if c then x.run else y.run := apply_ite run c x y

@[simp] theorem run_loop (body : σ → Logged ε (Flow σ ρ)) : ∀ (n : Nat) (s : σ),
    (loop body n s).run = Run.loop (fun s => (body s).run) n s
  | 0, _ => rfl
  | n + 1, s => by
    rw [loop, Run.loop, run_bind]
    refine bind_congr fun x => ?_
    cases x with
    | next s' => exact run_loop body n s'
    | done r => rfl

/-! ## The events -/

/-- Every event of `x` satisfies `P`. -/
def Logs (P : ε → Prop) (x : Logged ε α) : Prop := ∀ e ∈ x.log, P e

namespace Logs

variable {P : ε → Prop}

theorem pure (a : α) : Logs P (Pure.pure a : Logged ε α) := fun _ h => nomatch h

theorem lift (x : Run α) : Logs P (liftM x : Logged ε α) := fun _ h => nomatch h

theorem tick {e : ε} (h : P e) : Logs P (Logged.tick e) := fun _ he => List.mem_singleton.mp he ▸ h

/-- What comes after `x` knows what `x` has returned. -/
theorem bind {x : Logged ε α} {f : α → Logged ε β} (hx : Logs P x)
    (hf : ∀ a, x.run = .ret a → Logs P (f a)) : Logs P (x >>= f) := fun e he => by
  change e ∈ (Logged.bind x f).log at he
  rw [Logged.bind] at he
  cases hr : x.run with
  | ret a =>
    rw [hr, List.mem_append] at he
    exact he.elim (hx e) (hf a hr e)
  | panic => exact hx e (by rwa [hr] at he)
  | fuel => exact hx e (by rwa [hr] at he)

theorem lift_bind {x : Run α} {f : α → Logged ε β} (hf : ∀ a, x = .ret a → Logs P (f a)) :
    Logs P (liftM x >>= f) :=
  (lift x).bind hf

theorem ite {c : Prop} {_ : Decidable c} {x y : Logged ε α} (ht : c → Logs P x)
    (hf : ¬ c → Logs P y) : Logs P (if c then x else y) := by
  split
  · exact ht ‹_›
  · exact hf ‹_›

/-- A loop whose body keeps `I`, and logs nothing but `P` in it. -/
theorem loop {body : σ → Logged ε (Flow σ ρ)} (I : σ → Prop) (hlogs : ∀ s, I s → Logs P (body s))
    (hnext : ∀ s s', I s → (body s).run = .ret (.next s') → I s') :
    ∀ (n : Nat) (s : σ), I s → Logs P (Logged.loop body n s)
  | 0, _, _ => fun _ h => nomatch h
  | n + 1, s, hs => by
    rw [Logged.loop]
    refine (hlogs s hs).bind fun x hx => ?_
    cases x with
    | next s' => exact loop I hlogs hnext n s' (hnext s s' hs hx)
    | done r => exact pure r

end Logs

end Logged

end Lz4rip
