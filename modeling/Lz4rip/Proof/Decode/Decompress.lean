import Lz4rip.Proof.Decode.Reference

/-!
# The decoder's entry points

`decompressInternal_spec` is the block decoder on a sink that already holds
something, against the reference decoder with the dictionary and that in
front. The theorems about the public functions follow from it, and the one
about the fast loop (`decompressBodyWith_fast`) from the machine that both
ways of running it come to.
-/

namespace Lz4rip.Proof.Decode

open Lz4rip.Impl
open Run (Visits Returns)

/-- The result `r` and the sink `s'` after decoding `input` into `s`, where the
reference decodes it after `w`. -/
structure DecodesInto (hist input : List UInt8) (s : OutSink) (r : Except DecompressError Nat)
    (s' : OutSink) : Prop where
  capacity : s'.output.length = s.output.length
  le : s.pos ≤ s'.pos
  pos_le : s'.pos ≤ s.output.length
  kept : s'.output.take s.pos = s.output.take s.pos
  ok : ∀ v, Spec.decode (hist ++ s.output.take s.pos) input = some v →
    s.pos + v.length ≤ s.output.length →
      r = .ok v.length ∧ s'.pos = s.pos + v.length ∧
        s'.output.take s'.pos = s.output.take s.pos ++ v
  tooSmall : ∀ v, Spec.decode (hist ++ s.output.take s.pos) input = some v →
    s.output.length < s.pos + v.length →
      ∃ e, r = .error (.outputTooSmall e s.output.length) ∧ s.output.length < e ∧
        e ≤ s.pos + v.length
  error : Spec.decode (hist ++ s.output.take s.pos) input = none → ∃ e, r = .error e

theorem decompressInternal_spec {t : Target} (useDict : Bool) {input : List UInt8}
    (dict : List UInt8) (s : OutSink) (hf : Fits t input s.output.length) (hpos : s.pos ≤ s.output.length) :
    (decompressInternal t useDict input s dict).WP fun (r, s') =>
      DecodesInto (history useDict dict) input s r s' := by
  refine (decompressInternal_ok useDict dict s hf hpos).mono fun (r, s') ⟨e, w, hret, h, hle, hr⟩ => ?_
  have hw : (s.output.take s.pos).length = s.pos := by rw [List.length_take]; omega
  obtain ⟨r', hret', hd⟩ := machine_spec (history useDict dict) hf
    (input.length + 1) 0 (s.output.take s.pos) (Nat.zero_le _) (by omega) (by omega)
  obtain rfl := hret.unique hret'
  have hp := h.pos
  have hdec : Spec.decode (history useDict dict ++ s.output.take s.pos) input =
      (Spec.decodeFrom (history useDict dict ++ s.output.take s.pos) (input.length + 1)
        (input.drop 0)).map (·.drop ((history useDict dict).length + s.pos)) := by
    rw [Spec.decode, List.drop_zero, List.length_append, hw]
  have hpre := List.prefix_iff_eq_take.mp (machine_keeps hret)
  dsimp only at hpre
  rw [hw] at hpre
  refine ⟨h.capacity, by omega, by rw [hp]; exact h.le, ?_, fun v hv hfit => ?_, fun v hv hbig => ?_,
    fun hv => ?_⟩
  · rw [hpre, ← h.written, List.take_take, Nat.min_eq_left (by omega)]
  · rw [hdec] at hv
    obtain ⟨u, hu, rfl⟩ := Option.map_eq_some_iff.mp hv
    have hul := Spec.length_decodeFrom hu
    simp only [hu, Decodes, List.length_append, List.length_drop, hw] at hd hul hfit ⊢
    rw [if_pos (by omega)] at hd
    obtain ⟨rfl, rfl⟩ := Prod.mk.inj hd
    have hwl : (u.drop (history useDict dict).length).length = s.pos +
        (u.length - ((history useDict dict).length + s.pos)) := by
      rw [List.length_drop]
      omega
    refine ⟨?_, by omega, ?_⟩
    · rw [hr, hwl, Nat.add_sub_cancel_left]
      rfl
    · rw [h.written]
      conv_lhs => rw [← List.take_append_drop s.pos (u.drop (history useDict dict).length), ← hpre,
        List.drop_drop]
  · rw [hdec] at hv
    obtain ⟨u, hu, rfl⟩ := Option.map_eq_some_iff.mp hv
    have hul := Spec.length_decodeFrom hu
    simp only [hu, Decodes, List.length_append, List.length_drop, hw] at hd hul hbig ⊢
    rw [if_neg (by omega)] at hd
    obtain ⟨n, rfl, hlt, hn⟩ := hd
    exact ⟨n, hr, hlt, by omega⟩
  · rw [hdec] at hv
    rw [Option.map_eq_none_iff.mp hv] at hd
    obtain ⟨e', rfl⟩ := hd
    exact ⟨e', hr⟩

/-- Decoding into a sink that holds something, in either form of the entry
point. -/
theorem decompressIntoSinkWithDict_spec {t : Target} {useDict : Bool} {input dict : List UInt8}
    {s : SliceSink} (hf : Fits t input s.output.length) (hpos : s.pos ≤ s.output.length) :
    (decompressIntoSinkWithDict t useDict input s dict).WP fun (r, s') =>
      DecodesInto (history useDict dict) input ⟨s.output, s.pos⟩ r ⟨s'.output, s'.pos⟩ := by
  simp only [decompressIntoSinkWithDict, Run.WP_bind]
  exact decompressInternal_spec useDict dict ⟨s.output, s.pos⟩ hf hpos

/-- The error that the decoder gives for `input` after `hist`, when `w` is
written and the buffer has `cap` bytes. -/
def refusal (t : Target) (hist input : List UInt8) (cap : Nat) (w : List UInt8) : DecompressError :=
  match Run.loop (machine t hist input cap) (input.length + 1) (0, w) with
  | .ret (.error e, _) => e
  | _ => .expectedAnotherByte

theorem refusal_eq {t : Target} {hist input w w' : List UInt8} {cap : Nat} {e : DecompressError}
    (h : Returns (machine t hist input cap) (0, w) (.error e, w')) :
    refusal t hist input cap w = e := by
  have hw : (Run.loop (machine t hist input cap) (input.length + 1) (0, w)).WP fun _ => True := by
    refine Run.WP.loop (fun s => s.1 ≤ input.length) (fun s => input.length - s.1) (fun s hs => ?_)
      _ _ (Nat.zero_le _) (Nat.lt_succ_of_le (Nat.sub_le _ _))
    rw [machine, Run.WP_ret]
    cases hstep : tokenStep t hist input cap s with
    | next s' =>
      have := tokenStep_next hstep
      exact ⟨this.2, by omega⟩
    | done r => trivial
  rw [refusal, h.loop_eq hw]

/-- The error depends on nothing but what the decoder reads. -/
theorem decompressIntoSinkWithDict_refusal {t : Target} {useDict : Bool} {input dict : List UInt8}
    {s : SliceSink} (hf : Fits t input s.output.length) (hpos : s.pos ≤ s.output.length) :
    (decompressIntoSinkWithDict t useDict input s dict).WP fun (r, _) => ∀ e, r = .error e →
      e = refusal t (history useDict dict) input s.output.length (s.output.take s.pos) := by
  simp only [decompressIntoSinkWithDict, Run.WP_bind]
  refine (decompressInternal_ok useDict dict ⟨s.output, s.pos⟩ hf hpos).mono fun (r, s')
    ⟨e, w, hret, _, _, hr⟩ err he => ?_
  cases e with
  | ok u => exact nomatch hr.symm.trans he
  | error e' =>
    obtain rfl := Except.error.inj (hr.symm.trans he)
    exact (refusal_eq hret).symm

/-! ## The fast loop -/

/-- Two runs of the decoder that cannot be told apart: both panic, or both give
the same result, the same position and the same bytes below it. -/
def SameOutcome (x y : Run (Except DecompressError Nat × OutSink)) : Prop :=
  x = .panic ∧ y = .panic ∨
    ∃ r s s', x = .ret (r, s) ∧ y = .ret (r, s') ∧ s.pos = s'.pos ∧
      s.output.take s.pos = s'.output.take s'.pos

/-- Running the decoder with or without its fast loop. -/
theorem decompressBodyWith_fast (t : Target) (useDict : Bool) (input dict : List UInt8)
    (s : OutSink) (h : t.Addressable [input, s.output]) (hfast : fastEnabled input s = true) :
    SameOutcome (decompressBodyWith t useDict true input s dict)
      (decompressBodyWith t useDict false input s dict) := by
  by_cases hpos : s.pos ≤ s.output.length
  · have hf := Fits.of_addressable h
    obtain ⟨⟨r, s₁⟩, hx, e, w, hret, h₁, -, rfl⟩ := Run.WP_iff.mp
      (decompressBodyWith_ok useDict true dict s hf
        (fun _ => of_decide_eq_true hfast) hpos)
    obtain ⟨⟨r', s₂⟩, hy, e', w', hret', h₂, -, rfl⟩ := Run.WP_iff.mp
      (decompressBodyWith_ok useDict false dict s hf
        (fun h => nomatch h) hpos)
    obtain ⟨rfl, rfl⟩ := Prod.mk.inj (hret.unique hret')
    exact .inr ⟨_, s₁, s₂, hx, hy, by rw [h₁.pos, h₂.pos], by rw [h₁.written, h₂.written]⟩
  · have hpanic : ∀ fast, decompressBodyWith t useDict fast input s dict = .panic := fun fast => by
      rw [decompressBodyWith, Run.assert, if_neg (by rwa [OutSink.capacity])]
      rfl
    exact .inl ⟨hpanic true, hpanic false⟩

/-- The fast loop takes a sequence of eight literals and a match, and the last literals. -/
theorem decompressBodyWith_fast_sequence :
    let t : Target := ⟨.w64, false, false⟩
    let input : List UInt8 := [0x84, 1, 2, 3, 4, 5, 6, 7, 8, 8, 0, 0xF0, 5] ++ List.replicate 20 9
    let output : OutSink := ⟨List.replicate 64 0, 0⟩
    (∃ s, fastToken t false input [] (0, output) = .ret (.next s) ∧
      ∃ s', fastToken t false input [] s = .ret (.done (.finished s'))) ∧
    SameOutcome (decompressBodyWith t false true input output [])
      (decompressBodyWith t false false input output []) :=
  ⟨⟨_, rfl, _, rfl⟩, decompressBodyWith_fast _ _ _ _ _ (by decide) (by decide)⟩

/-! ## The public functions -/

/-- Decoding with `run`, which is given the output buffer, is decoding with the
reference after `dict`: whatever a buffer of `c` bytes holds, the call returns,
with a result that does not depend on it. -/
def RefinesReference (run : List UInt8 → Run (Except DecompressError Nat × List UInt8))
    (dict input : List UInt8) (c : Nat) : Prop :=
  ∃ r : Except DecompressError Nat,
    (∀ n, r = .ok n ↔ ∃ v, Spec.decode dict input = some v ∧ v.length = n ∧ n ≤ c) ∧
      ∀ out, out.length = c → ∃ out', run out = .ret (r, out') ∧ out'.length = c ∧
        ∀ v, Spec.decode dict input = some v → v.length ≤ c → out'.take v.length = v

theorem refinesReference_of_internal {t : Target} (useDict : Bool) {input : List UInt8}
    (dict : List UInt8) {out : List UInt8} (h : t.Addressable [input, out]) :
    RefinesReference (fun out => do
      let (r, sink) ← decompressInternal t useDict input ⟨out, 0⟩ dict
      return (r, sink.output)) (history useDict dict) input out.length := by
  have hf := Fits.of_addressable h
  obtain ⟨r₀, hret₀, -⟩ := machine_spec (history useDict dict) hf
    (input.length + 1) 0 [] (Nat.zero_le _) (Nat.zero_le _) (by omega)
  have run : ∀ o : List UInt8, o.length = out.length → ∃ s,
      decompressInternal t useDict input ⟨o, 0⟩ dict = .ret (r₀.1.map fun _ => r₀.2.length, s) ∧
        DecodesInto (history useDict dict) input ⟨o, 0⟩ (r₀.1.map fun _ => r₀.2.length) s :=
    fun o ho => by
      have hf' : Fits t input o.length := by rwa [ho]
      obtain ⟨⟨r, s⟩, hx, hd⟩ := Run.WP_iff.mp
        (decompressInternal_spec useDict dict ⟨o, 0⟩ hf' (Nat.zero_le _))
      obtain ⟨⟨r', s'⟩, hx', e, w, hret, -, -, hr⟩ := Run.WP_iff.mp
        (decompressInternal_ok useDict dict ⟨o, 0⟩ hf' (Nat.zero_le _))
      obtain ⟨rfl, rfl⟩ := Prod.mk.inj (Run.ret.inj (hx.symm.trans hx'))
      dsimp only [List.take_zero] at hret
      rw [ho] at hret
      obtain rfl := hret.unique hret₀
      rw [Nat.sub_zero] at hr
      subst hr
      exact ⟨s, hx, hd⟩
  refine ⟨r₀.1.map fun _ => r₀.2.length, fun n => ?_, fun o ho => ?_⟩
  · obtain ⟨s, -, hd⟩ := run out rfl
    have hok := hd.ok
    have hsmall := hd.tooSmall
    have herr := hd.error
    simp only [List.take_zero, List.append_nil, List.nil_append, Nat.zero_add] at hok hsmall herr
    cases hv : Spec.decode (history useDict dict) input with
    | none =>
      obtain ⟨e, he⟩ := herr hv
      rw [he]
      exact ⟨(nomatch ·), fun ⟨_, h, _⟩ => nomatch h⟩
    | some v =>
      by_cases hc : v.length ≤ out.length
      · rw [(hok v hv hc).1]
        refine ⟨fun h => ?_, fun ⟨u, hu, hn, _⟩ => ?_⟩
        · obtain rfl := Except.ok.inj h
          exact ⟨v, rfl, rfl, hc⟩
        · rw [Option.some.inj hu, hn]
      · obtain ⟨e, he, -⟩ := hsmall v hv (by omega)
        rw [he]
        refine ⟨(nomatch ·), fun ⟨u, hu, hn, hle⟩ => ?_⟩
        rw [← Option.some.inj hu] at hn
        omega
  · obtain ⟨s, hx, hd⟩ := run o ho
    refine ⟨s.output, by simp only [hx, Run.ret_bind, Run.pure_eq], hd.capacity.trans ho, fun v hv hc => ?_⟩
    have hok := hd.ok
    simp only [List.take_zero, List.append_nil, List.nil_append, Nat.zero_add] at hok
    obtain ⟨-, hp, hw⟩ := hok v hv (by omega)
    rwa [hp] at hw

/-- `decompress_into` and `decompress_into_with_dict` decode as the reference
does. -/
theorem decompressInto_refines (t : Target) (input out dict : List UInt8)
    (h : t.Addressable [input, out]) :
    RefinesReference (fun out => decompressIntoWithDict t input out dict) dict input out.length ∧
      RefinesReference (fun out => decompressInto t input out) [] input out.length :=
  ⟨refinesReference_of_internal true dict h, refinesReference_of_internal false [] h⟩

/-- The block of one literal, into two bytes. -/
theorem decompressInto_refines_literal :
    RefinesReference (fun out => decompressIntoWithDict ⟨.w32, true, false⟩ [16, 7] out [1, 2]) [1, 2]
        [16, 7] 2 ∧
      RefinesReference (fun out => decompressInto ⟨.w32, true, false⟩ [16, 7] out) [] [16, 7] 2 :=
  decompressInto_refines _ _ [0, 0] _ (by decide)

end Lz4rip.Proof.Decode
