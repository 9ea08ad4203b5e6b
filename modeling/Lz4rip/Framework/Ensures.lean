import Lz4rip.Framework.Proc
import Lz4rip.Framework.Sim
import Lz4rip.Framework.Slice

/-!
# What holds if the code returns

`Ensures Q E x` is partial correctness, as `Run.Post` is, of code that may fail: where `x`
returns, its value satisfies `Q`, or its error satisfies `E`; it may also panic, and nothing
is said of how long it runs. The rules are those of `WP` without their conditions for a panic,
and a loop needs no measure (`Ensures.loop`). `Preserves I x` says that `x` keeps an invariant whatever it returns.
-/

namespace Lz4rip

namespace Run

theorem Post.chunk {α : Type} {l : List α} {i n : Nat} :
    Post (chunk l i n) fun a => a.length = n ∧ i + n ≤ l.length := by
  unfold Run.chunk
  exact .ite (fun h => .ret ⟨length_seg h, h⟩) fun _ => Post_panic

end Run

namespace Proc

variable {σ ε α β ρ : Type} {Q : α → σ → Prop} {E : ε → σ → Prop}

/-- Where the code returns: a value that satisfies `Q`, or an error that satisfies `E`. -/
def Ensures (Q : α → σ → Prop) (E : ε → σ → Prop) (x : Run (Except ε α × σ)) : Prop :=
  x.Post fun
    | (.ok a, s) => Q a s
    | (.error e, s) => E e s

/-- The code keeps `I`, whatever it returns. -/
abbrev Preserves (I : σ → Prop) (x : Run (Except ε α × σ)) : Prop := Ensures (fun _ => I) (fun _ => I) x

theorem WP.ensures {x : Run (Except ε α × σ)} (h : WP Q E x) : Ensures Q E x := Run.WP.post h

theorem Ensures.of_ok {x : Run (Except ε α × σ)} {a : α} {s : σ} (h : Ensures Q E x)
    (hx : x = .ret (.ok a, s)) : Q a s := h _ hx

theorem Ensures.of_error {x : Run (Except ε α × σ)} {e : ε} {s : σ} (h : Ensures Q E x)
    (hx : x = .ret (.error e, s)) : E e s := h _ hx

theorem Preserves.of_ret {I : σ → Prop} {x : Run (Except ε α × σ)} {r : Except ε α} {s : σ}
    (h : Preserves I x) (hx : x = .ret (r, s)) : I s := by
  cases r with
  | ok a => exact h.of_ok hx
  | error e => exact h.of_error hx

theorem Ensures.mono {Q' : α → σ → Prop} {E' : ε → σ → Prop} {x : Run (Except ε α × σ)}
    (h : Ensures Q E x) (hQ : ∀ a s, Q a s → Q' a s) (hE : ∀ e s, E e s → E' e s) : Ensures Q' E' x := by
  rintro ⟨r, s⟩ hx
  cases r with
  | ok a => exact hQ a s (h.of_ok hx)
  | error e => exact hE e s (h.of_error hx)

theorem Ensures.ret {a : α} {s : σ} (h : Q a s) : Ensures Q E (.ret (.ok a, s)) := fun _ hx => by
  cases hx
  exact h

theorem Ensures.error {e : ε} {s : σ} (h : E e s) : Ensures Q E (.ret (.error e, s)) := fun _ hx => by
  cases hx
  exact h

theorem Ensures.bind {x : Proc σ ε α} {f : α → Proc σ ε β} {Q' : β → σ → Prop} {s : σ}
    (h : Ensures Q E (x s)) (hf : ∀ a s', Q a s' → Ensures Q' E (f a s')) :
    Ensures Q' E ((x >>= f) s) := by
  intro p hp
  obtain ⟨⟨r, s'⟩, hx, hr⟩ := Run.bind_eq_ret.mp (show (x s >>= andThen f) = .ret p from hp)
  cases r with
  | ok a => exact hf a s' (h.of_ok hx) p hr
  | error e =>
    cases hr
    exact h.of_error hx

theorem Ensures.get {f : σ → Proc σ ε α} {s : σ} (h : Ensures Q E (f s s)) :
    Ensures Q E ((Proc.get >>= f) s) := h

theorem Ensures.modify {f : σ → σ} {g : Unit → Proc σ ε α} {s : σ} (h : Ensures Q E (g () (f s))) :
    Ensures Q E ((Proc.modify f >>= g) s) := h

theorem Ensures.last {x : Run α} {s : σ} {P : α → Prop} (hx : x.Post P) (h : ∀ a, P a → Q a s) :
    Ensures Q E (Proc.lift x s) := by
  intro p hp
  obtain ⟨a, ha, hret⟩ := Run.bind_eq_ret.mp (show (x >>= fun a => .ret (.ok a, s)) = .ret p from hp)
  cases hret
  exact h a (hx a ha)

theorem Ensures.lift {x : Run β} {f : β → Proc σ ε α} {s : σ} {P : β → Prop} (hx : x.Post P)
    (hf : ∀ a, P a → Ensures Q E (f a s)) : Ensures Q E ((Proc.lift x >>= f) s) :=
  Ensures.bind (Q := fun a s' => P a ∧ s' = s) (.last hx fun _ h => ⟨h, rfl⟩) fun a _ ⟨h, hs⟩ => by
    subst hs
    exact hf a h

theorem Ensures.check {x : Except ε α} {s : σ} (hQ : ∀ a, x = .ok a → Q a s)
    (hE : ∀ e, x = .error e → E e s) : Ensures Q E (Proc.ofExcept x s) :=
  (WP_ofExcept hQ hE).ensures

theorem Ensures.ofExcept {x : Except ε β} {f : β → Proc σ ε α} {s : σ}
    (hf : ∀ a, x = .ok a → Ensures Q E (f a s)) (hE : ∀ e, E e s) :
    Ensures Q E ((Proc.ofExcept x >>= f) s) :=
  Ensures.bind (Q := fun a s' => x = .ok a ∧ s' = s) (.check (fun _ h => ⟨h, rfl⟩) fun e _ => hE e)
    fun a _ ⟨h, hs⟩ => by
      subst hs
      exact hf a h

theorem Ensures.refuse {c : Prop} {_ : Decidable c} {e : ε} {f : Unit → Proc σ ε α} {s : σ}
    (hf : ¬ c → Ensures Q E (f () s)) (hE : E e s) : Ensures Q E ((Proc.refuse c e >>= f) s) :=
  Ensures.bind (Q := fun _ s' => ¬ c ∧ s' = s) (WP_refuse (fun h => ⟨h, rfl⟩) fun _ => hE).ensures
    fun _ _ ⟨h, hs⟩ => by
      subst hs
      exact hf h

theorem Ensures.attempt {x : Proc σ ε α} {Q : Except ε α → σ → Prop} {s : σ}
    (h : Ensures (fun a => Q (.ok a)) (fun e => Q (.error e)) (x s)) : Ensures Q E (Proc.attempt x s) := by
  intro p hp
  obtain ⟨⟨r, s'⟩, hx, hret⟩ := Run.bind_eq_ret.mp (show (x s >>= fun p => _) = .ret p from hp)
  cases hret
  cases r with
  | ok a => exact h.of_ok hx
  | error e => exact h.of_error hx

theorem Ensures.ite {c : Prop} {_ : Decidable c} {x y : Proc σ ε α} {s : σ}
    (ht : c → Ensures Q E (x s)) (hf : ¬ c → Ensures Q E (y s)) :
    Ensures Q E ((if c then x else y) s) := by
  split
  · exact ht ‹_›
  · exact hf ‹_›

/-- A loop whose body keeps `I` as long as it goes on. -/
theorem Ensures.loop {Q : ρ → σ → Prop} {body : β → Proc σ ε (Run.Flow β ρ)} (I : β → σ → Prop)
    (hbody : ∀ b s, I b s → Ensures (FlowAll I Q) E (body b s)) :
    ∀ (n : Nat) (b : β) (s : σ), I b s → Ensures Q E (Proc.loop body n b s)
  | 0, _, _, _ => fun _ hp => by cases hp
  | n + 1, b, s, hI => by
    intro p hp
    cases hx : body b s with
    | ret q =>
      obtain ⟨r, s'⟩ := q
      cases r with
      | ok flow =>
        have hflow := (hbody b s hI).of_ok hx
        cases flow with
        | next b' =>
          rw [loop_next hx] at hp
          exact Ensures.loop I hbody n b' s' hflow p hp
        | done r =>
          rw [loop_done hx] at hp
          cases hp
          exact hflow
      | error e =>
        rw [loop_error hx] at hp
        cases hp
        exact (hbody b s hI).of_error hx
    | panic =>
      rw [loop_panic hx] at hp
      cases hp
    | fuel =>
      simp only [Proc.loop, Run.loop, hx, Run.fuel_bind, reduceCtorEq] at hp

end Proc

end Lz4rip
