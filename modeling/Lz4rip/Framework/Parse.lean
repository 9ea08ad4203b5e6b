import Lz4rip.Framework.Proc

/-!
# Reading back what was written

Code that reads from a state, where `I s bs` says that `s` has the bytes `bs` to give.
`Consumes I x bs a`: from any state that has `bs` and more, `x` takes `bs` and returns
`a`. `Rejects I x bs e`: it fails with `e`, whatever comes after `bs`. What a program
consumes is what its parts consume, one behind the other (`Consumes.bind`).
-/

namespace Lz4rip.Proc

variable {σ ε α β γ : Type} {I : σ → List γ → Prop}

def Consumes (I : σ → List γ → Prop) (x : Proc σ ε α) (bs : List γ) (a : α) : Prop :=
  ∀ s rest, I s (bs ++ rest) → ∃ s', x s = .ret (.ok a, s') ∧ I s' rest

def Rejects (I : σ → List γ → Prop) (x : Proc σ ε α) (bs : List γ) (e : ε) : Prop :=
  ∀ s rest, I s (bs ++ rest) → ∃ s', x s = .ret (.error e, s')

theorem Consumes.pure (a : α) : Consumes I (Pure.pure a : Proc σ ε α) [] a :=
  fun s _ h => ⟨s, rfl, h⟩

theorem Consumes.lift {x : Run α} {a : α} (h : x = .ret a) : Consumes I (lift x : Proc σ ε α) [] a := by
  subst h
  exact fun s _ h => ⟨s, rfl, h⟩

theorem Consumes.ofExcept {x : Except ε α} {a : α} (h : x = .ok a) :
    Consumes I (ofExcept x : Proc σ ε α) [] a := by
  subst h
  exact fun s _ h => ⟨s, rfl, h⟩

theorem Consumes.refuse {c : Prop} {_ : Decidable c} {e : ε} (h : ¬ c) :
    Consumes I (refuse c e : Proc σ ε Unit) [] () := fun s _ hI => by
  refine ⟨s, ?_, hI⟩
  rw [refuse_run, if_neg h]

theorem Consumes.bind {x : Proc σ ε α} {f : α → Proc σ ε β} {bs cs : List γ} {a : α} {b : β}
    (hx : Consumes I x bs a) (hf : Consumes I (f a) cs b) : Consumes I (x >>= f) (bs ++ cs) b :=
  fun s rest h => by
    rw [List.append_assoc] at h
    obtain ⟨s₁, hs₁, h₁⟩ := hx s _ h
    rw [bind_run, hs₁]
    exact hf s₁ rest h₁

/-- A check, and what comes after it. -/
theorem Consumes.andThen {x : Proc σ ε α} {f : α → Proc σ ε β} {bs : List γ} {a : α} {b : β}
    (hx : Consumes I x [] a) (hf : Consumes I (f a) bs b) : Consumes I (x >>= f) bs b :=
  hx.bind hf

/-- Code that takes the last of the bytes. -/
theorem Consumes.last {x : Proc σ ε α} {f : α → Proc σ ε β} {bs : List γ} {a : α} {b : β}
    (hx : Consumes I x bs a) (hf : Consumes I (f a) [] b) : Consumes I (x >>= f) bs b := by
  rw [← List.append_nil bs]
  exact hx.bind hf

theorem Rejects.ofExcept {x : Except ε α} {e : ε} (h : x = .error e) :
    Rejects I (ofExcept x : Proc σ ε α) [] e := by
  subst h
  exact fun s _ _ => ⟨s, rfl⟩

theorem Rejects.refuse {c : Prop} {_ : Decidable c} {e : ε} (h : c) :
    Rejects I (refuse c e : Proc σ ε Unit) [] e := fun s _ _ => by
  refine ⟨s, ?_⟩
  rw [refuse_run, if_pos h]

/-- What comes after an error does not matter. -/
theorem Rejects.then {x : Proc σ ε α} {f : α → Proc σ ε β} {bs : List γ} {e : ε}
    (hx : Rejects I x bs e) : Rejects I (x >>= f) bs e := fun s rest h => by
  obtain ⟨s', hs'⟩ := hx s rest h
  exact ⟨s', by rw [bind_run, hs', Run.ret_bind, andThen_error]⟩

theorem Rejects.bind {x : Proc σ ε α} {f : α → Proc σ ε β} {bs cs : List γ} {a : α} {e : ε}
    (hx : Consumes I x bs a) (hf : Rejects I (f a) cs e) : Rejects I (x >>= f) (bs ++ cs) e :=
  fun s rest h => by
    rw [List.append_assoc] at h
    obtain ⟨s₁, hs₁, h₁⟩ := hx s _ h
    obtain ⟨s₂, hs₂⟩ := hf s₁ rest h₁
    exact ⟨s₂, by rw [bind_run, hs₁, Run.ret_bind, andThen_ok, hs₂]⟩

theorem Rejects.andThen {x : Proc σ ε α} {f : α → Proc σ ε β} {bs : List γ} {a : α} {e : ε}
    (hx : Consumes I x [] a) (hf : Rejects I (f a) bs e) : Rejects I (x >>= f) bs e :=
  .bind hx hf

theorem Rejects.append {x : Proc σ ε α} {bs : List γ} {e : ε} (h : Rejects I x bs e) (cs : List γ) :
    Rejects I x (bs ++ cs) e := fun s rest hI => by
  rw [List.append_assoc] at hI
  exact h s _ hI

end Lz4rip.Proc
