import Lz4rip.Proof.Decode.Copy

/-!
# One token of the decoder

`tokenStep` is the decoder without its buffer: the state is the input position
and the bytes written so far, a match is copied one byte at a time
(`Lz77.copyBack`), and every check is made where the general path makes it.

`generalToken_ok` says that the general path takes the step of `tokenStep`;
`decompressBodyWith` is tied to the machine of these steps in
`Proof.Decode.Body`, through the fast loop (`Proof.Decode.Fast`).
-/

namespace Lz4rip.Proof.Decode

open Lz4rip.Impl
open Lz4rip.Lz77 (Copied copyBack)

/-- Where a token leads: the input position and the bytes written before the
next one, or the result and the bytes written. -/
abbrev Step := Run.Flow (Nat × List UInt8) (Except DecompressError Unit × List UInt8)

/-- A token's match, at `ip`, after its literals; `w` is what is written. -/
def matchStep (t : Target) (dict input : List UInt8) (cap : Nat) (token : UInt8) (ip : Nat)
    (w : List UInt8) : Step :=
  match readOffset input ip with
  | .error e => .done (.error e, w)
  | .ok (off, ip) =>
    match readMatchLength t input ip token cap with
    | .error e => .done (.error e, w)
    | .ok (len, ip) =>
      if cap < w.length + len then .done (.error (.outputTooSmall (min (w.length + len) t.usizeMax) cap), w)
      else if dict.length + w.length < off then .done (.error .offsetOutOfBounds, w)
      else .next (ip, (copyBack (dict ++ w) off len).drop dict.length)

/-- A token at `s.1`, when `s.2` is written. -/
def tokenStep (t : Target) (dict input : List UInt8) (cap : Nat) (s : Nat × List UInt8) : Step :=
  match input[s.1]? with
  | none => .done (.error .expectedAnotherByte, s.2)
  | some token =>
    match readLiteralLength t input (s.1 + TOKEN_LEN) token cap with
    | .error e => .done (.error e, s.2)
    | .ok (len, ip) =>
      if input.length < ip + len then .done (.error .literalOutOfBounds, s.2)
      else if cap < s.2.length + len then
        .done (.error (.outputTooSmall (min (s.2.length + len) t.usizeMax) cap), s.2)
      else if input.length ≤ ip + len then .done (.ok (), s.2 ++ seg input ip len)
      else matchStep t dict input cap token (ip + len) (s.2 ++ seg input ip len)

/-! ## Reading -/

/-- What the positions and lengths read come to. -/
theorem readIntegerLoop_le {t : Target} {max : Nat} : ∀ {bs : List UInt8} {n pos m p : Nat},
    n ≤ max → readIntegerLoop t max n pos bs = .ok (m, p) →
      pos < p ∧ p ≤ pos + bs.length ∧ m ≤ max + 255
  | b :: bs, n, pos, m, p, hn, h => by
    have hb := b.toNat_lt
    rw [readIntegerLoop] at h
    rw [List.length_cons]
    split at h
    · split at h
      · cases h
        simp only [EXT_LEN]
        omega
      · split at h
        · cases h
          simp only [EXT_LEN]
          omega
        · have := readIntegerLoop_le (by omega) h
          simp only [EXT_LEN] at this
          omega
    · cases h

theorem readIntegerBounded_le {t : Target} {input : List UInt8} {pos max m p : Nat}
    (h : readIntegerBounded t input pos max = .ok (m, p)) :
    pos < p ∧ p ≤ input.length ∧ m ≤ max + 255 := by
  have := readIntegerLoop_le (Nat.zero_le _) h
  rw [List.length_drop] at this
  omega

theorem extendLength_le {t : Target} {input : List UInt8} {pos base max m p : Nat}
    (h : extendLength t input pos base max = .ok (m, p)) :
    pos < p ∧ p ≤ input.length ∧ m ≤ base + max + 255 := by
  unfold extendLength at h
  split at h
  · cases h
  · have := readIntegerBounded_le ‹_›
    split at h
    · cases h
      omega
    · cases h

theorem readLiteralLength_le {t : Target} {input : List UInt8} {pos max m p : Nat} {token : UInt8}
    (h : readLiteralLength t input pos token max = .ok (m, p)) (hp : pos ≤ input.length) :
    pos ≤ p ∧ p ≤ input.length ∧ m ≤ max + 270 := by
  have := token.toNat_lt
  unfold readLiteralLength at h
  simp only [RUN_MASK] at h
  split at h
  · have := extendLength_le h
    omega
  · cases h
    omega

theorem readMatchLength_le {t : Target} {input : List UInt8} {pos max m p : Nat} {token : UInt8}
    (h : readMatchLength t input pos token max = .ok (m, p)) (hp : pos ≤ input.length) :
    pos ≤ p ∧ p ≤ input.length ∧ m ≤ max + 274 := by
  have := token.toNat_lt
  unfold readMatchLength at h
  simp only [MINMATCH, ML_MASK] at h
  split at h
  · have := extendLength_le h
    omega
  · cases h
    omega

theorem readOffset_le {input : List UInt8} {pos off p : Nat} (h : readOffset input pos = .ok (off, p)) :
    0 < off ∧ off < 65536 ∧ p = pos + 2 ∧ p ≤ input.length := by
  unfold readOffset at h
  split at h
  · rename_i lo hi rest hd
    have hl := congrArg List.length hd
    have := leNat_lt [lo, hi]
    simp only [List.length_cons, List.length_nil, List.length_drop] at hl this
    dsimp only at h
    split at h
    · cases h
    · cases h
      refine ⟨by omega, by omega, rfl, ?_⟩
      simp only [OFFSET_LEN]
      omega
  · cases h

theorem matchStep_next {t : Target} {dict input : List UInt8} {cap ip ip' : Nat} {token : UInt8}
    {w w' : List UInt8} (h : matchStep t dict input cap token ip w = .next (ip', w')) :
    ip < ip' ∧ ip' ≤ input.length := by
  unfold matchStep at h
  split at h
  · cases h
  · have h₁ := readOffset_le ‹_›
    split at h
    · cases h
    · have h₂ := readMatchLength_le ‹_› h₁.2.2.2
      split at h
      · cases h
      · split at h
        · cases h
        · cases h
          omega

/-- A step reads on. -/
theorem tokenStep_next {t : Target} {dict input : List UInt8} {cap : Nat}
    {s s' : Nat × List UInt8} (h : tokenStep t dict input cap s = .next s') :
    s.1 < s'.1 ∧ s'.1 ≤ input.length := by
  unfold tokenStep at h
  split at h
  · cases h
  · have hi := (List.getElem?_eq_some_iff.mp ‹_›).1
    split at h
    · cases h
    · have h₁ := readLiteralLength_le ‹_› (by simp only [TOKEN_LEN]; omega)
      split at h
      · cases h
      · split at h
        · cases h
        · split at h
          · cases h
          · have := matchStep_next h
            simp only [TOKEN_LEN] at h₁
            omega

/-! ## The buffer -/

/-- The buffer of the sink has `cap` bytes, and `w` is what is written. -/
structure Holds (cap : Nat) (s : OutSink) (w : List UInt8) : Prop where
  capacity : s.output.length = cap
  pos : s.pos = w.length
  le : w.length ≤ cap
  written : s.output.take s.pos = w

namespace Holds

variable {cap : Nat} {s : OutSink} {w : List UInt8}

theorem of_pos (h : s.pos ≤ s.output.length) :
    Holds s.output.length s (s.output.take s.pos) := by
  have : (s.output.take s.pos).length = s.pos := by rw [List.length_take]; omega
  exact ⟨rfl, this.symm, by omega, rfl⟩

theorem append {b : List UInt8} {d : List UInt8} (h : Holds cap s w)
    (ha : Appended s.output b s.pos d) (hd : w.length + d.length ≤ cap) :
    Holds cap ⟨b, s.pos + d.length⟩ (w ++ d) := by
  obtain ⟨hc, hp, hle, hw⟩ := h
  refine ⟨ha.length.trans hc, ?_, ?_, ?_⟩
  · rw [List.length_append, hp]
  · rw [List.length_append]
    exact hd
  · exact ha.take.trans (by rw [hw])

theorem copied {b : List UInt8} {off n : Nat} (h : Holds cap s w) (h₀ : 0 < off)
    (ho : off ≤ w.length) (hc : Copied s.output b s.pos off n) (hn : w.length + n ≤ cap) :
    Holds cap ⟨b, s.pos + n⟩ (copyBack w off n) := by
  obtain ⟨hcap, hp, hle, hw⟩ := h
  have hl := Lz77.length_copyBack h₀ ho n
  refine ⟨hc.length.trans hcap, ?_, by omega, ?_⟩
  · rw [hl, hp]
  · rw [← hw]
    exact hc.take_eq h₀ (by omega) (by omega)

end Holds

/-- A step of the general path is the step of the machine. -/
inductive Agrees (cap : Nat) : TokenFlow → Step → Prop where
  | next {ip : Nat} {s : OutSink} {w : List UInt8} : Holds cap s w →
      Agrees cap (.next (ip, s)) (.next (ip, w))
  | done {r : Except DecompressError Unit} {s : OutSink} {w : List UInt8} : Holds cap s w →
      Agrees cap (.done (r, s)) (.done (r, w))

/-- The dictionary that matches reach: none unless `USE_DICT` is set. -/
def history (useDict : Bool) (extDict : List UInt8) : List UInt8 := if useDict then extDict else []

/-- The slices fit the address space. -/
def Fits (t : Target) (input : List UInt8) (cap : Nat) : Prop :=
  input.length + cap + 4096 ≤ t.addressSpace

theorem Fits.of_addressable {t : Target} {input out : List UInt8}
    (h : t.Addressable [input, out]) : Fits t input out.length := by
  have := h.2
  simp only [List.map_cons, List.map_nil, List.sum_cons, List.sum_nil] at this
  unfold Fits
  omega

theorem Fits.le {t : Target} {input : List UInt8} {cap : Nat} (h : Fits t input cap) :
    input.length + cap + 4096 ≤ t.modulus :=
  Nat.le_trans h t.addressSpace_le

/-- The plain sums of 64-bit targets do not overflow. -/
theorem Fits.sum_lt {t : Target} {input : List UInt8} {cap m n : Nat} (h : Fits t input cap)
    (hm : m ≤ cap ∨ m ≤ input.length) (hn : n ≤ cap + 4000)
    (hw : t.width = .w64) : m + n < t.modulus := by
  have := t.modulus_eq_of_w64 hw
  unfold Fits at h
  omega

theorem OutSink.extendFromSlice_ok (t : Target) {cap : Nat} {s : OutSink} {w d : List UInt8}
    (h : Holds cap s w) (hd : w.length + d.length ≤ cap) :
    (s.extendFromSlice t d).WP fun s' => Holds cap s' (w ++ d) := by
  have hb : s.pos + d.length ≤ s.output.length := by
    rw [h.pos, h.capacity]
    exact hd
  simp only [OutSink.extendFromSlice, Run.WP_bind, Run.WP_chunk, Run.pure_eq, Run.WP_ret]
  refine ⟨hb, (sliceCopy_ok t.avx (length_seg hb).symm).mono fun c hc => ?_⟩
  rw [hc]
  exact h.append (.of_store hb) hd

theorem copyLiteralRun_ok {t : Target} {input : List UInt8} {cap ip len : Nat} {s : OutSink}
    {w : List UInt8} (hf : Fits t input cap) (hip : ip ≤ input.length) (h : Holds cap s w)
    (hlen : len ≤ cap + 270) :
    (copyLiteralRun t input ip s len).WP fun r =>
      if input.length < ip + len then r = .error .literalOutOfBounds
      else if cap < w.length + len then r = .error (.outputTooSmall (min (w.length + len) t.usizeMax) cap)
      else ∃ s', r = .ok s' ∧ Holds cap s' (w ++ seg input ip len) := by
  have hcap := h.capacity
  have hpos := h.pos
  have hle := h.le
  have hfit := hf.le
  unfold copyLiteralRun
  simp only [OutSink.capacity, hcap, hpos]
  refine .ite (fun h0 => ?_) fun h0 => ?_
  · subst h0
    simp only [if_neg (show ¬ input.length < ip + 0 by omega),
      if_neg (show ¬ cap < w.length + 0 by omega)]
    exact ⟨s, rfl, by rwa [seg_zero, List.append_nil]⟩
  rw [Run.WP_bind]
  refine (lenExceedsCapacity_ok (hf.sum_lt (by omega) (by omega)) hip).mono fun _ e₁ => .ite (fun c => ?_) fun c => ?_
  · simp only [e₁, decide_eq_true_eq] at c
    simp only [if_pos c, Run.pure_eq, Run.WP_ret]
  simp only [e₁, decide_eq_true_eq] at c
  simp only [if_neg c]
  rw [Run.WP_bind]
  refine (lenExceedsCapacity_ok (hf.sum_lt (by omega) (by omega)) (by omega)).mono fun _ e₂ =>
    .ite (fun c₂ => ?_) fun c₂ => ?_
  · simp only [e₂, decide_eq_true_eq] at c₂
    simp only [if_pos c₂, Run.WP_bind, Run.pure_eq, Run.WP_ret]
    exact (expectedOutputSize_ok (hf.sum_lt (by omega) (by omega))).mono fun _ e => by rw [e]
  simp only [e₂, decide_eq_true_eq] at c₂
  simp only [if_neg c₂]
  have hseg : (seg input ip len).length = len := length_seg (by omega)
  have hdone : ∀ {b p}, Appended s.output b w.length (seg input ip len) ∧ p = w.length + len →
      ∃ s', (Except.ok ⟨b, p⟩ : Except DecompressError OutSink) = .ok s' ∧
        Holds cap s' (w ++ seg input ip len) := fun {b p} ⟨ha, hp⟩ => by
    have := h.append (by rwa [hpos]) (by omega)
    rw [hseg, hpos, ← hp] at this
    exact ⟨_, rfl, this⟩
  rw [Run.WP_bind]
  refine (hasHeadroom_ok (by simp only [LONG_CHUNK, WIDE_CHUNK, MATCH_CHUNK]; omega)).mono
    fun _ e₃ => ?_
  rw [Run.WP_bind]
  refine (hasHeadroom_ok (by simp only [LONG_CHUNK, WIDE_CHUNK, MATCH_CHUNK]; omega)).mono
    fun _ e₄ => .ite (fun c₃ => ?_) fun _ => ?_
  · simp only [e₃, e₄, Bool.and_eq_true, decide_eq_true_eq, LONG_CHUNK, WIDE_CHUNK, MATCH_CHUNK]
      at c₃
    simp only [wildCopyLiterals, Run.WP_bind, Run.pure_eq, Run.WP_ret]
    exact (copyLiterals32_ok c₃.1.2 (by omega)).mono fun b ha => hdone ⟨ha, rfl⟩
  · rw [Run.WP_bind]
    exact (copyFromSrc_ok (by omega) (by omega)).mono fun _ hb => hdone hb

/-- The match of a token, wherever it starts and whether or not it goes on in
the output. -/
theorem copyTokenMatch_ok {t : Target} {input : List UInt8} {useDict : Bool} {cap off len : Nat}
    {s : OutSink} {w dict : List UInt8} (hf : Fits t input cap) (h : Holds cap s w) (h₀ : 0 < off)
    (hlen : w.length + len ≤ cap) :
    (copyTokenMatch t useDict s dict off len).WP fun r =>
      if (history useDict dict).length + w.length < off then r = .error .offsetOutOfBounds
      else ∃ s', r = .ok s' ∧ Holds cap s'
        ((copyBack (history useDict dict ++ w) off len).drop (history useDict dict).length) := by
  -- The part in the output: the offset reaches no further than what is written.
  have finish : ∀ {s' : OutSink} {v : List UInt8} {n : Nat}, Holds cap s' v → v.length + n ≤ cap →
      (copyTokenMatch.finish t off s' n).WP fun r =>
        if v.length < off then r = .error .offsetOutOfBounds
        else ∃ s'', r = .ok s'' ∧ Holds cap s'' (copyBack v off n) := fun {s' v n} h' hn => by
    have hcap := h'.capacity
    have hpos := h'.pos
    have hfit := hf.le
    unfold copyTokenMatch.finish
    refine .ite (fun c => ?_) fun c => ?_
    · simp only [if_pos (show v.length < off by omega), Run.pure_eq, Run.WP_ret]
    · simp only [if_neg (show ¬ v.length < off by omega), Run.WP_bind]
      refine (copyMatch_ok h₀ (by omega) (by omega) (by omega)).mono fun (b, p) ⟨hc, hp⟩ => ?_
      subst hp
      exact ⟨_, rfl, h'.copied h₀ (by omega) hc hn⟩
  have hpos := h.pos
  unfold copyTokenMatch
  cases useDict with
  | false =>
    simp only [history, Bool.false_eq_true, false_and, if_false, List.length_nil, List.nil_append,
      Nat.zero_add, List.drop_zero]
    exact finish h hlen
  | true =>
    simp only [history, if_true, true_and]
    refine .ite (fun c => ?_) fun c => ?_
    · simp only [copyFromDict, Run.WP_bind, Run.WP_assert, Run.WP_sub]
      refine ⟨c, by omega, .ite (fun hb => ?_) fun hb => ?_⟩
      · simp only [if_pos (show dict.length + w.length < off by omega), Run.pure_eq, Run.WP_ret]
      · have hmin : min len (dict.length - (dict.length - (off - s.pos))) = min len (off - w.length) := by
          omega
        have hseg : (seg dict (dict.length - (off - s.pos)) (min len (off - w.length))).length =
            min len (off - w.length) := length_seg (by omega)
        have ho : off ≤ (dict ++ w).length := by rw [List.length_append]; omega
        simp only [Run.WP_bind, Run.WP_chunk, hmin]
        refine ⟨by omega, (OutSink.extendFromSlice_ok t h (by omega)).mono fun s' h' => ?_⟩
        simp only [if_neg (show ¬ dict.length + w.length < off by omega)]
        have hv : dict ++ (w ++ seg dict (dict.length - (off - s.pos)) (min len (off - w.length))) =
            copyBack (dict ++ w) off (min len (off - w.length)) := by
          rw [Lz77.copyBack_of_le h₀ ho (by omega), List.append_assoc, List.length_append,
            show dict.length + w.length - off = dict.length - (off - s.pos) by omega,
            seg_append_left _ (by omega)]
        simp only [Run.pure_eq, Run.WP_ret]
        refine .ite (fun hl => ?_) fun hl => ?_
        · refine ⟨s', rfl, ?_⟩
          rw [hl] at hv h'
          rwa [← hv, List.drop_left]
        · rw [Run.WP_bind, Run.WP_sub]
          refine ⟨by omega, (finish h' (by rw [List.length_append]; omega)).mono fun r hr => ?_⟩
          rw [if_neg (by rw [List.length_append]; omega)] at hr
          obtain ⟨s'', rfl, h''⟩ := hr
          refine ⟨s'', rfl, ?_⟩
          rwa [show len = min len (off - w.length) + (len - min len (off - w.length)) by omega,
            Lz77.copyBack_add, ← hv, Lz77.copyBack_append _ h₀ (by rw [List.length_append]; omega),
            List.drop_left]
    · refine (finish h hlen).mono fun r hr => ?_
      rw [if_neg (by omega)] at hr
      rw [if_neg (by omega), Lz77.copyBack_append _ h₀ (by omega), List.drop_left]
      exact hr

/-- The general path takes the step of the machine, on a token's match. -/
theorem generalMatch_ok {t : Target} {input : List UInt8} {useDict : Bool} {cap ip : Nat}
    {token : UInt8} {s : OutSink} {w dict : List UInt8} (hf : Fits t input cap)
    (h : Holds cap s w) :
    (generalMatch t useDict input ip token s dict).WP fun r =>
      Agrees cap r (matchStep t (history useDict dict) input cap token ip w) := by
  have hle := h.le
  unfold generalMatch matchStep
  simp only [OutSink.capacity, h.capacity, h.pos]
  cases hoff : readOffset input ip with
  | error e => exact .done h
  | ok p =>
    obtain ⟨off, ip₁⟩ := p
    have h₁ := readOffset_le hoff
    dsimp only
    cases hlen : readMatchLength t input ip₁ token cap with
    | error e => exact .done h
    | ok p =>
      obtain ⟨len, ip₂⟩ := p
      have h₂ := readMatchLength_le hlen h₁.2.2.2
      have hfit := hf.le
      dsimp only
      rw [Run.WP_bind]
      refine (lenExceedsCapacity_ok (hf.sum_lt (by omega) (by omega)) hle).mono fun _ e => .ite (fun c => ?_) fun c => ?_
      · simp only [e, decide_eq_true_eq] at c
        rw [if_pos c, Run.WP_bind]
        exact (expectedOutputSize_ok (hf.sum_lt (by omega) (by omega))).mono fun _ e => by rw [e]; exact .done h
      · simp only [e, decide_eq_true_eq] at c
        rw [if_neg c, Run.WP_bind]
        refine (copyTokenMatch_ok hf h h₁.1 (by omega)).mono fun r hr => ?_
        split at hr
        · rw [hr, if_pos ‹_›]
          exact .done h
        · obtain ⟨s', rfl, h'⟩ := hr
          rw [if_neg ‹_›]
          exact .next h'

/-- The general path takes the step of the machine. -/
theorem generalToken_ok {t : Target} {input : List UInt8} {useDict : Bool} {cap ip : Nat}
    {s : OutSink} {w dict : List UInt8} (hf : Fits t input cap) (h : Holds cap s w) :
    (generalToken t useDict input dict ip s).WP fun r =>
      Agrees cap r (tokenStep t (history useDict dict) input cap (ip, w)) := by
  unfold generalToken tokenStep
  simp only [OutSink.capacity, h.capacity]
  cases hi : input[ip]? with
  | none => exact .done h
  | some token =>
    have hlt := (List.getElem?_eq_some_iff.mp hi).1
    dsimp only
    cases hlen : readLiteralLength t input (ip + TOKEN_LEN) token cap with
    | error e => exact .done h
    | ok p =>
      obtain ⟨len, ip₁⟩ := p
      have h₁ := readLiteralLength_le hlen hlt
      have hfit := hf.le
      dsimp only
      rw [Run.WP_bind]
      refine (copyLiteralRun_ok hf h₁.2.1 h h₁.2.2).mono fun r hr => ?_
      split at hr
      · rw [hr, if_pos ‹_›]
        exact .done h
      · rw [if_neg ‹_›]
        split at hr
        · rw [hr, if_pos ‹_›]
          exact .done h
        · obtain ⟨s', rfl, h'⟩ := hr
          rw [if_neg ‹_›]
          simp only [Run.WP_bind, Target.WP_add]
          refine ⟨by omega, .ite (fun c => ?_) fun c => ?_⟩
          · rw [if_pos c]
            exact .done h'
          · rw [if_neg c]
            exact generalMatch_ok hf h'

end Lz4rip.Proof.Decode
