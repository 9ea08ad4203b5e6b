import Mathlib

/-!
# Running code that can panic or loop

What running a piece of Rust comes to (`Run`): the value it returns, a panic
(a failed index, slice, assertion, subtraction or `unwrap`), or a loop that
has used up its fuel. `WP x Q` is total correctness: `x` returns a value
that satisfies `Q`, so it neither panics nor loops for ever.

Loops run a body that either goes on from a new state or is done with a
result (`Flow`, `loop`). `WP.loop` is the one induction on fuel: an
invariant that the body keeps while a measure below the fuel decreases.
`forRange` is a loop over a range of indices, with an invariant for each.
`Visits` are the states in which a loop starts its iterations, `Returns` the
result it is left with.
-/

namespace Lz4rip

/-- The outcome of running a piece of code. -/
inductive Run (α : Type) where
  | ret (a : α)
  | panic
  | fuel
  deriving DecidableEq, Repr

namespace Run

variable {α β σ ρ : Type}

def bind : Run α → (α → Run β) → Run β
  | .ret a, f => f a
  | .panic, _ => .panic
  | .fuel, _ => .fuel

instance : Monad Run where
  pure := .ret
  bind := bind

@[simp] theorem pure_eq (a : α) : (pure a : Run α) = .ret a := rfl
@[simp] theorem ret_bind (a : α) (f : α → Run β) : (Run.ret a >>= f) = f a := rfl
@[simp] theorem panic_bind (f : α → Run β) : ((.panic : Run α) >>= f) = .panic := rfl
@[simp] theorem fuel_bind (f : α → Run β) : ((.fuel : Run α) >>= f) = .fuel := rfl

instance : LawfulMonad Run :=
  LawfulMonad.mk' Run (fun x => by cases x <;> rfl) (fun _ _ => rfl)
    (fun x _ _ => by cases x <;> rfl)

theorem bind_eq_ret {x : Run α} {f : α → Run β} {b : β} :
    (x >>= f) = .ret b ↔ ∃ a, x = .ret a ∧ f a = .ret b := by
  cases x <;> simp

/-- `x` returns a value that satisfies `Q`. -/
def WP : Run α → (α → Prop) → Prop
  | .ret a, Q => Q a
  | .panic, _ => False
  | .fuel, _ => False

@[simp] theorem WP_ret {a : α} {Q : α → Prop} : WP (.ret a) Q = Q a := rfl
@[simp] theorem WP_panic {Q : α → Prop} : ¬ WP .panic Q := id
@[simp] theorem WP_fuel {Q : α → Prop} : ¬ WP .fuel Q := id

@[simp] theorem WP_bind {x : Run α} {f : α → Run β} {Q : β → Prop} :
    WP (x >>= f) Q = WP x fun a => WP (f a) Q := by
  cases x <;> rfl

theorem WP.mono {x : Run α} {P Q : α → Prop} (h : WP x P) (hPQ : ∀ a, P a → Q a) : WP x Q := by
  cases x with
  | ret a => exact hPQ a h
  | panic => exact h
  | fuel => exact h

theorem WP_iff {x : Run α} {Q : α → Prop} : WP x Q ↔ ∃ a, x = .ret a ∧ Q a := by
  cases x <;> simp [WP]

theorem WP.and {x : Run α} {P Q : α → Prop} (hP : WP x P) (hQ : WP x Q) :
    WP x fun a => P a ∧ Q a := by
  cases x with
  | ret a => exact ⟨hP, hQ⟩
  | panic => exact hP
  | fuel => exact hP

theorem WP.ite {c : Prop} {_ : Decidable c} {x y : Run α} {Q : α → Prop} (ht : c → WP x Q)
    (hf : ¬ c → WP y Q) : WP (if c then x else y) Q := by
  split
  · exact ht ‹_›
  · exact hf ‹_›

/-- What is known of a value that a run did return. -/
theorem WP.of_ret {x : Run α} {a : α} {Q : α → Prop} (h : WP x Q) (hx : x = .ret a) : Q a := by
  rw [hx] at h
  exact h

/-- `assert!` and `debug_assert!`. -/
def assert (c : Prop) [Decidable c] : Run Unit := if c then .ret () else .panic

@[simp] theorem WP_assert {c : Prop} {_ : Decidable c} {Q : Unit → Prop} :
    WP (assert c) Q = (c ∧ Q ()) := by
  unfold assert
  split <;> simp [*]

/-- `a - b` on unsigned integers, checked. -/
def sub (a b : Nat) : Run Nat := if b ≤ a then .ret (a - b) else .panic

@[simp] theorem WP_sub {a b : Nat} {Q : Nat → Prop} : WP (sub a b) Q = (b ≤ a ∧ Q (a - b)) := by
  unfold sub
  split <;> simp [*]

/-! Unsigned arithmetic below `m`. A result that is out of range panics with
overflow checks on (`checks`), and wraps without them. -/

def addWith (checks : Bool) (m a b : Nat) : Run Nat :=
  if a + b < m then .ret (a + b) else if checks then .panic else .ret ((a + b) % m)

def subWith (checks : Bool) (m a b : Nat) : Run Nat :=
  if b ≤ a then .ret (a - b) else if checks then .panic else .ret (a + m - b)

def mulWith (checks : Bool) (m a b : Nat) : Run Nat :=
  if a * b < m then .ret (a * b) else if checks then .panic else .ret (a * b % m)

theorem addWith_eq {checks : Bool} {m a b : Nat} (h : a + b < m) :
    addWith checks m a b = .ret (a + b) := if_pos h

theorem subWith_eq {checks : Bool} {m a b : Nat} (h : b ≤ a) :
    subWith checks m a b = .ret (a - b) := if_pos h

theorem mulWith_eq {checks : Bool} {m a b : Nat} (h : a * b < m) :
    mulWith checks m a b = .ret (a * b) := if_pos h

theorem subWith_panics {m a b : Nat} (h : a < b) : subWith true m a b = .panic := by
  rw [subWith, if_neg (by omega), if_pos rfl]

/-- `Option::unwrap`. -/
def unwrap : Option α → Run α
  | some a => .ret a
  | none => .panic

@[simp] theorem unwrap_some (a : α) : unwrap (some a) = .ret a := rfl

/-! ## Loops -/

/-- What one iteration of a loop comes to: the state of the next iteration,
or the result the loop is left with. -/
inductive Flow (σ ρ : Type) where
  | next (s : σ)
  | done (r : ρ)

/-- `loop { body }`, for at most `n` iterations. -/
def loop (body : σ → Run (Flow σ ρ)) : Nat → σ → Run ρ
  | 0, _ => .fuel
  | n + 1, s => body s >>= fun
    | .next s' => loop body n s'
    | .done r => .ret r

theorem loop_next {body : σ → Run (Flow σ ρ)} {n : Nat} {s s' : σ} (h : body s = .ret (.next s')) :
    loop body (n + 1) s = loop body n s' := by
  rw [loop, h, ret_bind]

theorem loop_done {body : σ → Run (Flow σ ρ)} {n : Nat} {s : σ} {r : ρ}
    (h : body s = .ret (.done r)) : loop body (n + 1) s = .ret r := by
  rw [loop, h, ret_bind]

/-- A loop whose body keeps `I` and decreases `μ` returns, with a result that
its last iteration gives. -/
theorem WP.loop {body : σ → Run (Flow σ ρ)} (I : σ → Prop) (μ : σ → Nat) {Q : ρ → Prop}
    (hbody : ∀ s, I s → WP (body s) fun
      | .next s' => I s' ∧ μ s' < μ s
      | .done r => Q r) :
    ∀ (n : Nat) (s : σ), I s → μ s < n → WP (Run.loop body n s) Q
  | 0, _, _, hn => absurd hn (Nat.not_lt_zero _)
  | n + 1, s, hs, hn => by
    rw [Run.loop, WP_bind]
    refine (hbody s hs).mono fun x hx => ?_
    cases x with
    | next s' => exact WP.loop I μ hbody n s' hx.1 (by omega)
    | done r => exact hx

/-- `for i in lo..hi { body }`. -/
def forRange (lo hi : Nat) (body : Nat → σ → Run σ) (s : σ) : Run σ := go (hi - lo) lo s
where
  go : Nat → Nat → σ → Run σ
    | 0, _, s => .ret s
    | n + 1, i, s => body i s >>= go n (i + 1)

theorem WP.forRange_go {body : Nat → σ → Run σ} {I : Nat → σ → Prop} :
    ∀ {n i : Nat} {s : σ}, I i s → (∀ j s, i ≤ j → j < i + n → I j s → WP (body j s) (I (j + 1))) →
      WP (forRange.go body n i s) (I (i + n))
  | 0, _, _, hs, _ => hs
  | n + 1, i, s, hs, hbody => by
    rw [forRange.go, WP_bind]
    refine (hbody i s (Nat.le_refl _) (by omega) hs).mono fun s' hs' => ?_
    rw [show i + (n + 1) = i + 1 + n by omega]
    exact WP.forRange_go hs' fun j s hj hlt => hbody j s (by omega) (by omega)

/-- A loop over a range whose body takes `I` from each index to the next. -/
theorem WP.forRange {lo hi : Nat} {body : Nat → σ → Run σ} {s : σ} (I : Nat → σ → Prop)
    (hle : lo ≤ hi) (hs : I lo s)
    (hbody : ∀ i s, lo ≤ i → i < hi → I i s → WP (body i s) (I (i + 1))) :
    WP (Run.forRange lo hi body s) (I hi) := by
  have h := WP.forRange_go (n := hi - lo) hs fun j s hj hlt => hbody j s hj (by omega)
  rwa [Nat.add_sub_cancel' hle] at h

/-- A loop over a range whose states are known. -/
theorem forRange_eq {lo hi : Nat} {body : Nat → σ → Run σ} (f : Nat → σ) (hle : lo ≤ hi)
    (hbody : ∀ i, lo ≤ i → i < hi → body i (f i) = .ret (f (i + 1))) :
    Run.forRange lo hi body (f lo) = .ret (f hi) := by
  have h : WP (Run.forRange lo hi body (f lo)) (· = f hi) := by
    refine WP.forRange (fun i s => s = f i) hle rfl fun i s hlo hhi hs => ?_
    rw [hs, hbody i hlo hhi, WP_ret]
  obtain ⟨s, hs, rfl⟩ := WP_iff.mp h
  exact hs

/-- More fuel changes nothing for a loop that has enough. -/
theorem loop_of_le {body : σ → Run (Flow σ ρ)} : ∀ {n m : Nat} {s : σ}, loop body n s ≠ .fuel →
    n ≤ m → loop body m s = loop body n s
  | 0, _, _, h, _ => absurd rfl h
  | n + 1, m, s, h, hm => by
    obtain ⟨m, rfl⟩ := Nat.exists_eq_add_of_le' (Nat.lt_of_lt_of_le (Nat.succ_pos n) hm)
    rw [loop] at h
    rw [loop, loop]
    cases hx : body s with
    | ret x =>
      rw [hx, ret_bind] at h
      cases x with
      | next s' => exact loop_of_le h (by omega)
      | done r => rfl
    | panic => rfl
    | fuel => rfl

theorem loop_mono {body : σ → Run (Flow σ ρ)} {r : ρ} {n m : Nat} {s : σ}
    (h : loop body n s = .ret r) (hm : n ≤ m) : loop body m s = .ret r := by
  rw [← h]
  refine loop_of_le (fun hf => ?_) hm
  cases h.symm.trans hf

/-- How much fuel there is does not matter, where there is enough. -/
theorem loop_unique {body : σ → Run (Flow σ ρ)} {n m : Nat} {s : σ} (hn : loop body n s ≠ .fuel)
    (hm : loop body m s ≠ .fuel) : loop body n s = loop body m s := by
  rcases Nat.le_total n m with hle | hle
  · exact (loop_of_le hn hle).symm
  · exact loop_of_le hm hle

/-- The states in which a loop started at `s` starts an iteration. -/
inductive Visits (body : σ → Run (Flow σ ρ)) (s : σ) : σ → Prop where
  | start : Visits body s s
  | step {s' s'' : σ} : Visits body s s' → body s' = .ret (.next s'') → Visits body s s''

theorem Visits.trans {body : σ → Run (Flow σ ρ)} {s s' s'' : σ} (h : Visits body s s')
    (h' : Visits body s' s'') : Visits body s s'' := by
  induction h' with
  | start => exact h
  | step _ he ih => exact ih.step he

/-- The loop started at `s` is left with the result `r`. -/
inductive Returns (body : σ → Run (Flow σ ρ)) : σ → ρ → Prop where
  | done {s : σ} {r : ρ} : body s = .ret (.done r) → Returns body s r
  | next {s s' : σ} {r : ρ} : body s = .ret (.next s') → Returns body s' r → Returns body s r

theorem Returns.unique {body : σ → Run (Flow σ ρ)} {s : σ} {r r' : ρ} (h : Returns body s r)
    (h' : Returns body s r') : r = r' := by
  induction h with
  | done he =>
    cases h' with
    | done he' => exact Flow.done.inj (Run.ret.inj (he.symm.trans he'))
    | next he' => cases he.symm.trans he'
  | next he _ ih =>
    cases h' with
    | done he' => cases he.symm.trans he'
    | next he' h' =>
      obtain rfl := Flow.next.inj (Run.ret.inj (he.symm.trans he'))
      exact ih h'

/-- With enough fuel for the loop to return, it returns what it is left with. -/
theorem Returns.loop_eq {body : σ → Run (Flow σ ρ)} {s : σ} {r : ρ} (h : Returns body s r) :
    ∀ {n : Nat} {Q : ρ → Prop}, WP (Run.loop body n s) Q → Run.loop body n s = .ret r := by
  induction h with
  | done he =>
    intro n Q hw
    cases n with
    | zero => exact absurd hw WP_fuel
    | succ n => rw [Run.loop, he, ret_bind]
  | next he _ ih =>
    intro n Q hw
    cases n with
    | zero => exact absurd hw WP_fuel
    | succ n =>
      rw [Run.loop, he, ret_bind] at hw ⊢
      exact ih hw

/-- Bodies that do the same in all states that are reached are left with the same. -/
theorem Returns.congr {body body' : σ → Run (Flow σ ρ)} (I : σ → Prop) (h : ∀ s, I s → body s = body' s)
    (hnext : ∀ s s', I s → body s = .ret (.next s') → I s') {s : σ} {r : ρ} (hr : Returns body s r) (hs : I s) :
    Returns body' s r := by
  induction hr with
  | done he => exact .done ((h _ hs).symm.trans he)
  | next he _ ih => exact .next ((h _ hs).symm.trans he) (ih (hnext _ _ hs he))

/-- They also loop the same. -/
theorem loop_congr {body body' : σ → Run (Flow σ ρ)} (I : σ → Prop) (h : ∀ s, I s → body s = body' s)
    (hnext : ∀ s s', I s → body s = .ret (.next s') → I s') : ∀ (n : Nat) {s : σ}, I s →
      loop body n s = loop body' n s
  | 0, _, _ => rfl
  | n + 1, s, hs => by
    rw [loop, loop, ← h s hs]
    cases hx : body s with
    | panic => rfl
    | fuel => rfl
    | ret flow =>
      cases flow with
      | next s' => exact loop_congr I h hnext n (hnext s s' hs hx)
      | done r => rfl

theorem Visits.returns {body : σ → Run (Flow σ ρ)} {s s' : σ} {r : ρ} (h : Visits body s s')
    (hr : Returns body s' r) : Returns body s r := by
  induction h with
  | start => exact hr
  | step _ he ih => exact ih (.next he hr)

end Run

end Lz4rip
