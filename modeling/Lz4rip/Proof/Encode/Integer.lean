import Lz4rip.Proof.Decode.Reference
import Lz4rip.Proof.Encode.Emit

/-!
# Integers

`write_integer` and `put_integer` write the bytes that extend a length
(`Spec.extension`), and `read_integer` reads them back and stops behind them
(`readInteger_extension`). Where it stops at an integer, the bounded reader stops
there too, or before it with a value that is over its bound already
(`readIntegerLoop_bounded`). `integer_codec` puts these together.
-/

namespace Lz4rip.Proof.Encode

open Lz4rip.Impl
open Spec (extension readExtension readExtension_replicate)
open Decode (readIntegerBounded_reads)

/-! ## Writing -/

/-- `bytes` are written to a sink, at its position. -/
structure Pushes (s : SliceSink) (bytes : List UInt8) (s' : SliceSink) : Prop where
  output : s'.output = store s.output s.pos bytes
  pos : s'.pos = s.pos + bytes.length
  le : s'.pos ≤ s.output.length

theorem Pushes.length {s s' : SliceSink} {bytes : List UInt8} (h : Pushes s bytes s') :
    s'.output.length = s.output.length := by
  have hpos := h.pos
  have hle := h.le
  rw [h.output]
  exact length_store (by omega)

theorem push_writes : Writes SliceSink.push Pushes fun s => s.output.length - s.pos where
  refl h := ⟨(store_nil _ _).symm, rfl, by omega⟩
  trans {s s' s'' a b} h h' := by
    have hpos := h.pos
    have hpos' := h'.pos
    have hle := h.le
    have hle' := h'.le
    have hlen := h.length
    refine ⟨?_, ?_, by omega⟩
    · rw [h'.output, h.output, hpos, store_append (by omega)]
    · rw [hpos', hpos, List.length_append, Nat.add_assoc]
  left {s s' a} h := by
    have hpos := h.pos
    have hle := h.le
    have hlen := h.length
    omega
  put {s} b h := by
    simp only [SliceSink.push, Run.WP_bind, Run.WP_storeAt, Run.pure_eq, Run.WP_ret,
      List.length_singleton]
    exact ⟨by omega, rfl, rfl, by dsimp only; omega⟩

theorem writeInteger_ok {s : SliceSink} {n : Nat} (h : n / 255 + 1 ≤ s.output.length - s.pos) :
    (writeInteger s n).WP (Pushes s (extension n)) := by
  rw [writeInteger, Run.WP_bind]
  exact push_writes.integer (fun _ _ => rfl) h

/-! ## Reading -/

theorem readExtension_extension (n : Nat) (trailing : List UInt8) :
    readExtension (extension n ++ trailing) = some (n, trailing) := by
  rw [extension, readExtension_replicate _ _ _ (Nat.mod_lt _ (by decide)), Nat.div_add_mod]

/-- What is written is read back, whatever is in front of it and behind it. -/
theorem readInteger_extension (t : Target) {n : Nat} (hn : n < t.modulus)
    (before trailing : List UInt8) :
    readInteger t (before ++ extension n ++ trailing) before.length =
      .ok (n, before.length + (extension n).length) := by
  have hmod := t.modulus_cases
  have hdrop : (before ++ extension n ++ trailing).drop before.length = extension n ++ trailing := by
    rw [List.append_assoc, List.drop_left]
  have hlen : (before ++ extension n ++ trailing).length =
      before.length + (extension n).length + trailing.length := by
    rw [List.length_append, List.length_append]
  have hreads := readIntegerBounded_reads t (before ++ extension n ++ trailing) before.length
    t.usizeMax
  rw [hdrop, readExtension_extension] at hreads
  unfold Target.usizeMax at hreads
  rcases hreads with ⟨m, p, hres, hp, ⟨rfl, hrest⟩ | hover⟩ | ⟨-, -, hlong⟩
  · have := congrArg List.length hrest
    rw [List.length_drop] at this
    rw [readInteger, Target.usizeMax, hres, show p = before.length + (extension m).length by omega]
  · omega
  · have := hlong n trailing rfl
    omega

/-- What `res` comes to is what `res'` comes to, unless it is over `max`: then
`res'` is over `max` as well, or fails where `res` does. -/
structure BoundedBy (max : Nat) (res res' : Except DecompressError (Nat × Nat)) : Prop where
  within : ∀ v p, res = .ok (v, p) → v ≤ max → res' = .ok (v, p)
  beyond : ∀ v p, res = .ok (v, p) → max < v → ∃ w q, res' = .ok (w, q) ∧ max < w ∧ w ≤ v
  failed : ∀ e, res = .error e → (∃ e', res' = .error e') ∨ ∃ w q, res' = .ok (w, q) ∧ max < w

theorem BoundedBy.refl (max : Nat) (res : Except DecompressError (Nat × Nat)) :
    BoundedBy max res res where
  within _ _ h _ := h
  beyond v p h hv := ⟨v, p, h, hv, Nat.le_refl v⟩
  failed e h := .inl ⟨e, h⟩

/-- The value read only grows. -/
theorem readIntegerLoop_ge {t : Target} {max : Nat} : ∀ {bs : List UInt8} {n pos v p : Nat},
    readIntegerLoop t max n pos bs = .ok (v, p) → n ≤ v
  | b :: bs, n, pos, v, p, h => by
    rw [readIntegerLoop] at h
    split at h
    · split at h
      · cases h
        exact Nat.le_add_right _ _
      · split at h
        · cases h
          exact Nat.le_add_right _ _
        · exact Nat.le_trans (Nat.le_add_right _ _) (readIntegerLoop_ge h)
    · cases h

/-- With a bound the reader takes the same bytes, up to the first one that takes
it over the bound. -/
theorem readIntegerLoop_bounded (t : Target) (max : Nat) : ∀ (bs : List UInt8) (n pos : Nat),
    BoundedBy max (readIntegerLoop t t.usizeMax n pos bs) (readIntegerLoop t max n pos bs)
  | [], _, _ => .refl _ _
  | b :: bs, n, pos => by
    rw [readIntegerLoop, readIntegerLoop]
    by_cases hfit : n + b.toNat < t.modulus
    · rw [if_pos hfit, if_pos hfit]
      by_cases hmore : b ≠ EXT_MORE
      · rw [if_pos hmore, if_pos hmore]
        exact .refl _ _
      · have hmax : ¬ n + b.toNat > t.usizeMax := by
          unfold Target.usizeMax
          omega
        rw [if_neg hmore, if_neg hmore, if_neg hmax]
        by_cases hover : n + b.toNat > max
        · rw [if_pos hover]
          refine ⟨fun v p h hv => ?_, fun v p h _ => ?_, fun e _ => ?_⟩
          · have := readIntegerLoop_ge h
            omega
          · exact ⟨_, _, rfl, hover, readIntegerLoop_ge h⟩
          · exact .inr ⟨_, _, rfl, hover⟩
        · rw [if_neg hover]
          exact readIntegerLoop_bounded t max bs _ _
    · rw [if_neg hfit, if_neg hfit]
      exact .refl _ _

/-- The writers write the same bytes of an integer, the reader reads them back and
stops behind them, and a bound on the reader keeps every value within it. -/
theorem integer_codec (t : Target) {n : Nat} (hn : n < t.modulus) :
    (∀ o : Rest, (extension n).length ≤ o.rest.length →
      ∃ o', putInteger o n = .ret o' ∧ Puts o (extension n) o') ∧
    (∀ s : SliceSink, s.pos + (extension n).length ≤ s.output.length →
      ∃ s', writeInteger s n = .ret s' ∧ Pushes s (extension n) s') ∧
    (∀ before trailing, readInteger t (before ++ extension n ++ trailing) before.length =
      .ok (n, before.length + (extension n).length)) ∧
    ∀ input pos max, BoundedBy max (readInteger t input pos) (readIntegerBounded t input pos max) := by
  have hlen := length_extension n
  refine ⟨fun o ho => ?_, fun s hs => ?_, readInteger_extension t hn, fun input pos max => ?_⟩
  · exact Run.WP_iff.mp (putInteger_ok (by omega))
  · exact Run.WP_iff.mp (writeInteger_ok (by omega))
  · exact readIntegerLoop_bounded t max (input.drop pos) 0 pos

/-- A value with one byte of 255. -/
theorem integer_codec_300 :
    (∀ o : Rest, (extension 300).length ≤ o.rest.length →
      ∃ o', putInteger o 300 = .ret o' ∧ Puts o (extension 300) o') ∧
    (∀ s : SliceSink, s.pos + (extension 300).length ≤ s.output.length →
      ∃ s', writeInteger s 300 = .ret s' ∧ Pushes s (extension 300) s') ∧
    (∀ before trailing,
      readInteger ⟨.w32, false, false⟩ (before ++ extension 300 ++ trailing) before.length =
        .ok (300, before.length + (extension 300).length)) ∧
    ∀ input pos max, BoundedBy max (readInteger ⟨.w32, false, false⟩ input pos)
      (readIntegerBounded ⟨.w32, false, false⟩ input pos max) :=
  integer_codec ⟨.w32, false, false⟩ (by decide)

end Lz4rip.Proof.Encode
