import Lz4rip.Proof.Encode.RoundTrip
import Lz4rip.Proof.Encode.Sim

/-!
# Capacity

A call of the encoder on `n` bytes of input ends in one of three ways
(`Outcome`): with room for the largest block it succeeds, and the block has at
most `n + n / 255 + 16` bytes (`Compressed.length_le`); without that room it
reports a small output, and nothing is changed; and on 32-bit targets it
refuses, before anything else, a stream that is too long for the address space.
`encoder_outcome` says so of every route.
-/

namespace Lz4rip.Proof.Encode

open Lz4rip.Impl
open Spec (Block Conforms ConformsFrom sequenceBytes lastBytes IsBlockOf)

/-! ## The largest block -/

/-- Sequences cost at most what they stand for and one byte in 255. -/
theorem length_sequences_le {h n : Nat} : ∀ {p : Nat} {ss : List Spec.Sequence},
    ConformsFrom h n p ss →
    (ss.flatMap sequenceBytes).length ≤ Lz77.sizes ss + Lz77.sizes ss / 255
  | _, [], _ => Nat.zero_le _
  | p, s :: ss, ⟨⟨h4, _⟩, hss⟩ => by
    have ih := length_sequences_le hss
    have hs := length_sequenceBytes_le h4
    have hlit : s.literals.length ≤ s.size := Nat.le_add_right _ _
    rw [List.flatMap_cons, List.length_append, Lz77.sizes_cons]
    omega

section

variable {input extDict : List UInt8} {inputPos : Nat} {output sink : SliceSink}
  {r : Except CompressError Nat}

/-- The largest block of `n` bytes. -/
theorem Compressed.length_le {blk : Block}
    (h : Compressed extDict input inputPos output r sink blk) :
    blk.bytes.length ≤
      input.length - inputPos + (input.length - inputPos) / 255 + 16 := by
  obtain ⟨w, hw, he⟩ := Option.map_eq_some_iff.mp h.expand
  have hlen := Lz77.length_expand hw
  have htot := congrArg List.length he
  have hin := h.inputPos_le
  have hseq := length_sequences_le h.conforms.1
  have hlast := length_lastBytes_le blk.last
  simp only [List.length_append, List.length_take] at hlen htot
  rw [Block.bytes, List.length_append]
  omega

/-- The maximum output size has room for the largest block. -/
theorem getMaximumOutputSize_ge {t : Target} {n m : Nat} (hn : n ≤ t.isizeMax)
    (h : getMaximumOutputSize t n = .ret m) : n + n / 255 + 16 ≤ m := by
  have hw : (getMaximumOutputSize t n).WP (· = m) := Run.WP_iff.mpr ⟨m, h, rfl⟩
  simp only [getMaximumOutputSize, Run.WP_bind, Run.WP_assert, Run.pure_eq, Run.WP_ret] at hw
  obtain ⟨-, rfl⟩ := hw
  have := t.modulus_cases
  unfold Target.usizeMax Target.isizeMax at *
  split <;> omega

end

/-! ## The capacity function -/

/-- A block of the input from `start` on is written: sequences, and then the last
literals. -/
inductive WritesBlock (t : Target) (input : List UInt8) : Nat → Rest → Rest → Prop where
  | last {start : Nat} {o o' : Rest} : handleLastLiterals t o input start = .ret o' →
      WritesBlock t input start o o'
  | sequence {start litLen offset matchLen : Nat} {o o' o'' : Rest} :
      emitSequence t o input start litLen offset matchLen = .ret o' →
      WritesBlock t input (start + litLen + MINMATCH + matchLen) o' o'' → WritesBlock t input start o o''

theorem WritesBlock.length_le {t : Target} {input : List UInt8} {start : Nat} {o o' : Rest}
    (h : WritesBlock t input start o o') : start ≤ input.length ∧
      o'.written.length ≤
        o.written.length + (input.length - start) + (input.length - start) / 255 + 2 := by
  induction h with
  | @last start o o' h =>
    obtain ⟨hle, hputs⟩ := handleLastLiterals_ret _ _ _ _ _ h
    have hlen := length_lastBytes_le (input.drop start)
    have hw := congrArg List.length hputs.written
    rw [List.length_append] at hw
    rw [List.length_drop] at hlen
    exact ⟨hle, by omega⟩
  | @sequence start litLen offset matchLen o o' o'' h _ ih =>
    obtain ⟨hle, hputs⟩ := emitSequence_ret _ h
    have hlit : (seg input start litLen).length = litLen := length_seg hle
    have hlen := length_sequenceBytes_le
      (s := ⟨seg input start litLen, offset, 4 + matchLen⟩) (Nat.le_add_right 4 matchLen)
    have hw := congrArg List.length hputs.written
    rw [List.length_append] at hw
    simp only [Lz77.Sequence.size, hlit] at hlen
    simp only [MINMATCH] at ih
    omega

/-- What `get_maximum_output_size` promises of a length: the size it documents, in
exact arithmetic, no smaller one than for any smaller length, and room for every
block of an input of that length. -/
structure CapacityOf (t : Target) (n : Nat) : Prop where
  exact : getMaximumOutputSize t n = .ret (min t.usizeMax (20 + n * 110 / 100))
  mono : ∀ n' ≤ n, ∃ m', getMaximumOutputSize t n' = .ret m' ∧
    m' ≤ min t.usizeMax (20 + n * 110 / 100)
  room : ∀ input : List UInt8, input.length = n → t.Addressable [input] → ∀ o o',
    WritesBlock t input 0 o o' →
      o'.written.length ≤ o.written.length + min t.usizeMax (20 + n * 110 / 100)

theorem getMaximumOutputSize_eq (t : Target) {n : Nat} (h : n * 110 < 2 ^ 64) :
    getMaximumOutputSize t n = .ret (min t.usizeMax (20 + n * 110 / 100)) := by
  rw [getMaximumOutputSize, Run.assert, if_pos h, Run.ret_bind, Run.pure_eq]
  split
  · rw [Nat.min_eq_left (by omega)]
  · rw [Nat.min_eq_right (by omega)]

/-- The capacity function keeps its promise exactly where its product fits 64 bits. -/
theorem capacityOf_iff (t : Target) (n : Nat) : CapacityOf t n ↔ n * 110 < 2 ^ 64 := by
  refine ⟨fun h => ?_, fun h => ⟨getMaximumOutputSize_eq t h, fun n' hn' => ?_, ?_⟩⟩
  · by_contra hn
    have hpanic := h.exact
    rw [getMaximumOutputSize, Run.assert, if_neg hn] at hpanic
    cases hpanic
  · exact ⟨_, getMaximumOutputSize_eq t (by omega), by omega⟩
  · intro input hlen haddr o o' he
    have hsize : input.length ≤ t.isizeMax := haddr.1 input List.mem_cons_self
    have hle := he.length_le.2
    have hmod := t.modulus_cases
    unfold Target.isizeMax at hsize
    unfold Target.usizeMax
    omega

/-- The longest `usize` of 64 bits is a length the function panics on. -/
theorem not_capacityOf_usizeMax :
    ¬ ∀ n < Target.modulus ⟨.w64, false, false⟩, CapacityOf ⟨.w64, false, false⟩ n := fun h => by
  have hpanic := (h (2 ^ 64 - 1) (by decide)).exact
  rw [getMaximumOutputSize, Run.assert, if_neg (by decide)] at hpanic
  cases hpanic

/-! ## Outcomes -/

/-- What a call on `n` bytes comes to, on a destination with `free` bytes where
the largest block may take `max`. -/
structure Outcome {α : Type} (n max free : Nat) (refused : Prop) (dest : α)
    (r : Except CompressError Nat) (dest' : α) : Prop where
  ok : max ≤ free → ¬ refused → ∃ m, r = .ok m ∧ m ≤ n + n / 255 + 16
  tooSmall : free < max → ¬ refused → r = .error .outputTooSmall ∧ dest' = dest
  refused : refused → r = .error .inputTooLarge ∧ dest' = dest

/-- `ensure_stream_bounds` of 32-bit targets refuses a stream with a
dictionary. -/
def Refused (t : Target) (useDict : Bool) (offset n dictLen : Nat) : Prop :=
  t.width = .w32 ∧ useDict = true ∧ t.isizeMax < offset + n + dictLen

section

variable {w N : Nat} {t : Target} {m : Mode} {input extDict : List UInt8} {inputPos offset max : Nat}
  {output : SliceSink} {table : HashTable w N}

theorem Outcome.buffer {n free : Nat} {refused : Prop} {r : Except CompressError Nat}
    {s s' : SliceSink} (h : Outcome n max free refused s r s') :
    Outcome n max free refused s.output r s'.output :=
  ⟨h.ok, fun h₁ h₂ => (h.tooSmall h₁ h₂).imp_right (congrArg _),
    fun h₁ => (h.refused h₁).imp_right (congrArg _)⟩

theorem Outcome.congr {α : Type} {n free : Nat} {refused refused' : Prop} {dest dest' : α}
    {r : Except CompressError Nat} (h : Outcome n max free refused dest r dest')
    (hr : refused' ↔ refused) : Outcome n max free refused' dest r dest' :=
  ⟨fun h₁ h₂ => h.ok h₁ (mt hr.mpr h₂), fun h₁ h₂ => h.tooSmall h₁ (mt hr.mpr h₂),
    fun h₁ => h.refused (hr.mp h₁)⟩

/-- On 64-bit targets the maximum output size is not known of inputs that could
be too long. -/
theorem span_le_of_w64 {n : Nat} (hw : t.width = .w64) (hoff : offset < 2 ^ 33)
    (hmax : getMaximumOutputSize t n = .ret max) (hn : input.length ≤ n + 2 ^ 33)
    (hwin : extDict.length ≤ WINDOW_SIZE) :
    offset + input.length + extDict.length ≤ t.isizeMax := by
  have hw' : (getMaximumOutputSize t n).WP (· = max) :=
    Run.WP_iff.mpr ⟨max, hmax, rfl⟩
  simp only [getMaximumOutputSize, Run.WP_bind, Run.WP_assert] at hw'
  have hm : t.modulus = 2 ^ 64 := by rw [Target.modulus, hw]
  have h110 := hw'.1
  simp only [WINDOW_SIZE] at hwin
  unfold Target.isizeMax
  omega

/-- `compress_internal` on any destination. -/
theorem compressInternal_outcome (hN : ValidEntries t N) (hlen : input.length ≤ t.isizeMax)
    (hout : output.output.length ≤ t.isizeMax) (hsink : output.pos ≤ output.output.length)
    (hpos : inputPos ≤ input.length) (hfits : m.useDict = false → offset + input.length ≤ t.modulus)
    (hmax : getMaximumOutputSize t (input.length - inputPos) = .ret max)
    (hdict : m.useDict → extDict.length ≤ WINDOW_SIZE ∧ extDict.length ≤ offset)
    (h64 : t.width = .w64 → m.useDict → offset + input.length + extDict.length ≤ t.isizeMax)
    (hno : m.useDict = false → extDict = []) (hoff : m.hasOffset ∨ offset = 0)
    (hro : m.readonly → (m.useDict ∧ offset = extDict.length) ∧
      extDict.length + input.length < U16_MAX)
    (hnear : m.near → extDict.length + input.length ≤ MAX_DISTANCE + 1)
    (ht : Bounded m.readonly table (Nat.max 1 (offset + inputPos))) :
    (compressInternal t m input inputPos output table extDict offset).WP fun (r, sink, _) =>
      Outcome (input.length - inputPos) max (output.output.length - output.pos)
        (Refused t m.useDict offset input.length extDict.length) output r sink := by
  by_cases href : Refused t m.useDict offset input.length extDict.length
  · obtain ⟨hw, hu, hbig⟩ := href
    have hcheck : checkBounds t m.useDict input extDict offset = .ret (.error .inputTooLarge) := by
      rw [checkBounds, if_pos hu, Run.assert, if_pos (hdict hu).1, Run.ret_bind, streamBounds, hw]
      dsimp only
      rw [if_neg (by have := (hdict hu).2; omega), if_neg fun h => h.2 hbig]
      rfl
    rw [compressInternal, Run.assert, if_pos hpos, Run.ret_bind, hcheck, Run.ret_bind]
    exact ⟨fun _ h => absurd ⟨hw, hu, hbig⟩ h, fun _ h => absurd ⟨hw, hu, hbig⟩ h,
      fun _ => ⟨rfl, rfl⟩⟩
  · have hspan : m.useDict → offset + input.length + extDict.length ≤ t.isizeMax := fun hu => by
      cases hw : t.width with
      | w32 => exact Nat.le_of_not_lt fun h => href ⟨hw, hu, h⟩
      | w64 => exact h64 hw hu
    have hp : Permitted t m input extDict inputPos offset :=
      ⟨hpos, fun hu => ⟨(hdict hu).1, (hdict hu).2, hspan hu⟩, hno, hoff, fun h => (hro h).1,
        fun h => (hro h).2, hnear⟩
    have hfits' : offset + input.length ≤ t.modulus := by
      cases hu : m.useDict with
      | true =>
        have := hspan hu
        unfold Target.isizeMax at this
        omega
      | false => exact hfits hu
    by_cases hfree : output.output.length - output.pos < max
    · simp only [compressInternal, checkBounds_eq hp, Run.WP_bind, Run.WP_assert, Run.ret_bind]
      refine ⟨hpos, hoff, fun h => (hro h).1, fun h => (hro h).2, hnear, ?_⟩
      rw [writeBlock, hmax, Run.WP_bind, Run.WP_assert]
      refine ⟨hsink, ?_⟩
      dsimp only
      rw [Run.ret_bind, List.length_drop, if_pos hfree]
      exact ⟨fun h => by omega, fun _ _ => ⟨rfl, rfl⟩, fun h => absurd h href⟩
    · refine Run.WP.mono (compressInternal_ok hN hlen hout hsink hfits' hmax hp ht)
        fun x hres => ?_
      obtain ⟨r, sink, T⟩ := x
      obtain ⟨-, hsmall, -⟩ | ⟨⟨blk, hc⟩, -⟩ := hres
      · omega
      · exact ⟨fun _ _ => ⟨_, hc.result, hc.length_le⟩, fun h => absurd h hfree,
          fun h => absurd h href⟩

/-- `compress_with_dict_table` on any destination. -/
theorem compressWithDictTable_outcome {dictTable : HashTable w N} {mainBase : Nat}
    (hN : ValidEntries t N) (hlen : input.length ≤ t.isizeMax)
    (hout : output.output.length ≤ t.isizeMax) (hsink : output.pos ≤ output.output.length)
    (hfits : mainBase + input.length ≤ U16_MAX) (hnear : extDict.length + input.length < U16_MAX)
    (hmax : getMaximumOutputSize t input.length = .ret max) (ht : Below table mainBase) :
    (compressWithDictTable t input output table dictTable extDict extDict.length mainBase).WP
      fun (r, sink, _) =>
        Outcome input.length max (output.output.length - output.pos) False output r sink := by
  have hmod := t.modulus_cases
  simp only [U16_MAX] at hnear
  have hspan : extDict.length + input.length + extDict.length ≤ t.isizeMax := by
    unfold Target.isizeMax
    omega
  by_cases hfree : output.output.length - output.pos < max
  · simp only [compressWithDictTable, Run.WP_bind, Run.WP_assert,
      streamBounds_eq (Nat.le_refl extDict.length) hspan, Run.ret_bind, WINDOW_SIZE]
    refine ⟨trivial, hfits, by omega, ?_⟩
    rw [writeBlock, hmax, Run.WP_bind, Run.WP_assert]
    refine ⟨hsink, ?_⟩
    dsimp only
    rw [Run.ret_bind, List.length_drop, if_pos hfree]
    exact ⟨fun h => by omega, fun _ _ => ⟨rfl, rfl⟩, False.elim⟩
  · refine Run.WP.mono (compressWithDictTable_ok hN hlen hout hsink hfits hnear hmax ht)
      fun x hres => ?_
    obtain ⟨r, sink, T⟩ := x
    obtain ⟨-, hsmall, -⟩ | ⟨⟨blk, hc⟩, -⟩ := hres
    · omega
    · exact ⟨fun _ _ => ⟨_, hc.result, hc.length_le⟩, fun h => absurd h hfree, False.elim⟩

end

/-! ## Routes -/

section

variable {N : Nat} {t : Target} {input dict : List UInt8} {max : Nat}

/-- The last bytes of a dictionary that fit the window. -/
theorem length_initDict {w M : Nat} {T T' : HashTable w M} {d : List UInt8}
    (h : initDict t T dict = .ret (T', d)) : d.length = min dict.length WINDOW_SIZE := by
  obtain ⟨T₁, -, hret⟩ := Run.bind_eq_ret.mp h
  obtain ⟨-, rfl⟩ := Run.ret.inj hret
  split
  · rw [List.length_drop]
    omega
  · omega

/-- A call whose stream starts with the dictionary. -/
theorem compressInternal_outcome_start {w M : Nat} {T : HashTable w M} {useDict near : Bool}
    {output : SliceSink} (hM : ValidEntries t M) (hlen : input.length ≤ t.isizeMax)
    (hout : output.output.length ≤ t.isizeMax) (hsink : output.pos ≤ output.output.length)
    (hwin : dict.length ≤ WINDOW_SIZE) (hno : useDict = false → dict = [])
    (hmax : getMaximumOutputSize t input.length = .ret max)
    (hnear : near → dict.length + input.length < U16_MAX)
    (hT : Below T (Nat.max 1 dict.length)) :
    (compressInternal t ⟨useDict, useDict, false, near⟩ input 0 output T dict dict.length).WP
      fun (r, sink, _) => Outcome input.length max (output.output.length - output.pos)
        (Refused t useDict dict.length input.length dict.length) output r sink := by
  have hmod := t.modulus_cases
  have hfalse : ∀ {P : Prop}, (false : Bool) = true → P := fun h => absurd h Bool.false_ne_true
  have hoff : useDict = true ∨ dict.length = 0 := by
    cases hu : useDict with
    | true => exact .inl rfl
    | false => exact .inr (List.length_eq_zero_iff.mpr (hno hu))
  have h33 : dict.length < 2 ^ 33 := by
    simp only [WINDOW_SIZE] at hwin
    omega
  refine compressInternal_outcome hM hlen hout hsink (Nat.zero_le _) (fun hu => ?_) hmax
    (fun _ => ⟨hwin, Nat.le_refl _⟩)
    (fun hw _ => span_le_of_w64 hw h33 hmax (Nat.le_add_right _ _) hwin) hno hoff hfalse (fun h => ?_)
    fun _ => hT
  · rw [hno hu, List.length_nil]
    unfold Target.isizeMax at hlen
    omega
  · have := hnear h
    simp only [U16_MAX, MAX_DISTANCE] at this ⊢
    omega

theorem compressIntoSinkByLength_outcome {useDict : Bool} {output : SliceSink}
    (hlen : input.length ≤ t.isizeMax) (hout : output.output.length ≤ t.isizeMax)
    (hsink : output.pos ≤ output.output.length) (hno : useDict = false → dict = [])
    (hmax : getMaximumOutputSize t input.length = .ret max) :
    (compressIntoSinkByLength t useDict input output dict).WP fun (r, sink) =>
      Outcome input.length max (output.output.length - output.pos)
        (Refused t useDict (min dict.length WINDOW_SIZE) input.length (min dict.length WINDOW_SIZE))
        output r sink := by
  have hnil : ∀ {d : List UInt8}, d <:+ dict → useDict = false → d = [] := fun hd hu =>
    List.suffix_nil.mp (hno hu ▸ hd)
  unfold compressIntoSinkByLength
  split
  · rename_i hsmall
    obtain ⟨⟨T, d⟩, hi, hT, hwin, hd, -⟩ := Run.WP_iff.mp
      (initDict_ok (w := 16) dict (defaultDict_valid t))
    rw [HashTable.new_ok 16 (defaultDict_valid t), Run.ret_bind, hi, Run.ret_bind,
      ← length_initDict hi, Run.WP_bind]
    have hle := hd.length_le
    exact Run.WP.mono (compressInternal_outcome_start (defaultDict_valid t) hlen hout hsink hwin
      (hnil hd) hmax (fun _ => Nat.lt_of_le_of_lt (Nat.add_le_add_right hle _) hsmall) hT)
      fun (_, _, _) h => h
  · obtain ⟨⟨T, d⟩, hi, hT, hwin, hd, -⟩ := Run.WP_iff.mp
      (initDict_ok (w := 32) dict (defaultNodict_valid t))
    rw [HashTable.new_ok 32 (defaultNodict_valid t), Run.ret_bind, hi, Run.ret_bind,
      ← length_initDict hi, Run.WP_bind]
    exact Run.WP.mono (compressInternal_outcome_start (defaultNodict_valid t) hlen hout hsink hwin
      (hnil hd) hmax (fun h => absurd h Bool.false_ne_true) hT) fun (_, _, _) h => h

/-- The one-shot routes. -/
theorem compressIntoSinkWithDict_outcome {useDict : Bool} {output : SliceSink}
    (hlen : input.length ≤ t.isizeMax) (hout : output.output.length ≤ t.isizeMax)
    (hsink : output.pos ≤ output.output.length) (hno : useDict = false → dict = [])
    (hmax : getMaximumOutputSize t input.length = .ret max) :
    (compressIntoSinkWithDict t useDict input output dict).WP fun (r, sink) =>
      Outcome input.length max (output.output.length - output.pos)
        (MINMATCH ≤ dict.length ∧ Refused t useDict (min dict.length WINDOW_SIZE) input.length
          (min dict.length WINDOW_SIZE)) output r sink := by
  unfold compressIntoSinkWithDict
  refine .ite (fun hs => ?_) fun hs => ?_
  · refine Run.WP.mono (compressIntoSinkByLength_outcome hlen hout hsink (fun _ => rfl) hmax)
      fun _ h => h.congr (iff_of_false (fun h => by omega) fun h => absurd h.2.1 Bool.false_ne_true)
  · refine Run.WP.mono (compressIntoSinkByLength_outcome hlen hout hsink hno hmax)
      fun _ h => h.congr (and_iff_right_of_imp fun h => ?_)
    exact Nat.le_of_not_lt fun hd => hs ⟨h.2.1, hd⟩

/-- A stream that starts with a dictionary is not refused, in a buffer with room
for the largest block. -/
theorem not_refused {useDict : Bool} {output : List UInt8} {d : Nat}
    (haddr : t.Addressable [input, output]) (hwin : d ≤ WINDOW_SIZE)
    (hmax : getMaximumOutputSize t input.length = .ret max) (hroom : max ≤ output.length) :
    ¬ Refused t useDict d input.length d := fun h => by
  obtain ⟨hisize, hsum⟩ := haddr
  simp only [List.mem_cons, List.not_mem_nil, or_false, forall_eq_or_imp, forall_eq] at hisize
  simp only [List.map_cons, List.map_nil, List.sum_cons, List.sum_nil] at hsum
  have hlen : (List.replicate d (0 : UInt8)).length = d := List.length_replicate
  have hzeros : (List.replicate d (0 : UInt8)).length ≤ WINDOW_SIZE := by rwa [hlen]
  have hspan := span_le (by omega) hisize.2 hmax hroom hzeros
  rw [hlen] at hspan
  exact absurd h.2.2 (Nat.not_lt_of_le hspan)

theorem preparePlainTable_returns {table : HashTableU32 N} (streamOffset : Nat)
    (hlen : input.length ≤ t.isizeMax) :
    ∃ T next offset, preparePlainTable t table streamOffset input.length = .ret (T, next, offset) := by
  have hmod := t.modulus_cases
  unfold Target.isizeMax at hlen
  unfold preparePlainTable
  split
  · have hadd : ∀ x y : Nat, x + y < t.modulus → t.add x y = .ret (x + y) := fun x y h => if_pos h
    rw [hadd _ _ (by simp only [MAX_DISTANCE]; omega), Run.ret_bind,
      hadd _ _ (by simp only [MAX_DISTANCE]; omega)]
    exact ⟨_, _, _, rfl⟩
  · dsimp only
    split
    · exact ⟨_, _, _, rfl⟩
    · exact ⟨_, _, _, rfl⟩

theorem compressPlainTable_outcome {table : HashTableU32 N} {streamOffset : Nat}
    {output : List UInt8} (hN : ValidEntries t N) (hlen : input.length ≤ t.isizeMax)
    (hout : output.length ≤ t.isizeMax) (ht : Below table (Nat.max 1 streamOffset))
    (hmax : getMaximumOutputSize t input.length = .ret max) :
    (compressPlainTable t table streamOffset input output).WP fun (r, out, _, _) =>
      Outcome input.length max output.length False output r out := by
  have hmod := t.modulus_cases
  have hlen' := hlen
  unfold Target.isizeMax at hlen'
  have hret : ∃ T next offset,
      preparePlainTable t table streamOffset input.length = .ret (T, next, offset) :=
    preparePlainTable_returns streamOffset hlen
  obtain ⟨T, next, offset, hprep⟩ := hret
  obtain ⟨hT, hnext, hfits⟩ := preparePlainTable_ok ht hprep
  rw [compressPlainTable, hprep, Run.ret_bind]
  simp only [SliceSink.new_zero, Run.ret_bind, Run.WP_bind]
  generalize hm : (if offset > 0 then (⟨false, true, false, true⟩ : Mode)
    else if input.length ≤ MAX_DISTANCE + 1 then ⟨false, false, false, true⟩
    else ⟨false, false, false, false⟩) = m
  have hmode : (m.useDict = false ∧ m.readonly = false) ∧ (m.hasOffset ∨ offset = 0) ∧
      (m.near → ([] : List UInt8).length + input.length ≤ MAX_DISTANCE + 1) := by
    rw [← hm]
    by_cases h₀ : offset > 0
    · rw [if_pos h₀]
      refine ⟨⟨rfl, rfl⟩, .inl rfl, fun _ => ?_⟩
      have := (hfits h₀).1
      simp only [EPOCH_THRESHOLD, MAX_DISTANCE, List.length_nil] at this ⊢
      omega
    · rw [if_neg h₀]
      by_cases hs : input.length ≤ MAX_DISTANCE + 1
      · rw [if_pos hs]
        exact ⟨⟨rfl, rfl⟩, .inr (by omega), fun _ => (Nat.zero_add _).symm ▸ hs⟩
      · rw [if_neg hs]
        exact ⟨⟨rfl, rfl⟩, .inr (by omega), fun h => absurd h Bool.false_ne_true⟩
  obtain ⟨⟨hu, hr⟩, hoff, hnear⟩ := hmode
  have hfalse : ∀ {P : Prop} {b : Bool}, b = false → b = true → P := fun h h' =>
    absurd (h ▸ h') Bool.false_ne_true
  refine Run.WP.mono (compressInternal_outcome hN hlen hout (Nat.zero_le _) (Nat.zero_le _)
    (fun _ => ?_) hmax (hfalse hu) (fun _ => hfalse hu) (fun _ => rfl) hoff (hfalse hr) hnear
    fun _ => hT) fun x h => ?_
  · rcases Nat.eq_zero_or_pos offset with h₀ | h₀
    · omega
    · have := (hfits h₀).2
      omega
  · obtain ⟨r, sink, T'⟩ := x
    exact h.buffer.congr (iff_of_false id fun h => hfalse hu h.2.1)

theorem compressDictTables_outcome {table pristine : HashTableU32U16 N} {mainBase : Nat}
    {output : List UInt8} (hN : ValidEntries t N) (hlen : input.length ≤ t.isizeMax)
    (hout : output.length ≤ t.isizeMax) (hwin : dict.length ≤ WINDOW_SIZE) (ht : Below table mainBase)
    (hmax : getMaximumOutputSize t input.length = .ret max) :
    (compressDictTables t table pristine mainBase dict input output).WP fun (r, out, _) =>
      Outcome input.length max output.length (Refused t true dict.length input.length dict.length)
        output r out := by
  have hmod := t.modulus_cases
  have hno : ∀ {P : Prop}, (true : Bool) = false → P := fun h => absurd h.symm Bool.false_ne_true
  have hfalse : ∀ {P : Prop}, (false : Bool) = true → P := fun h => absurd h Bool.false_ne_true
  have h33 : dict.length < 2 ^ 33 := by
    simp only [WINDOW_SIZE] at hwin
    omega
  unfold compressDictTables
  refine .ite (fun h => ?_) fun _ => .ite (fun h => ?_) fun _ => ?_
  · rw [SliceSink.new_zero, Run.ret_bind, Run.WP_bind]
    refine Run.WP.mono (compressInternal_outcome hN hlen hout (Nat.zero_le _) (Nat.zero_le _) hno hmax
      (fun _ => ⟨hwin, Nat.le_refl _⟩)
      (fun hw _ => span_le_of_w64 hw h33 hmax (Nat.le_add_right _ _) hwin) hno (.inl rfl)
      (fun _ => ⟨⟨rfl, rfl⟩, h.2⟩) (fun _ => ?_) hno) fun (_, _, _) h => h.buffer
    have := h.2
    simp only [U16_MAX, MAX_DISTANCE] at this ⊢
    omega
  · simp only [SliceSink.new_zero, Run.ret_bind, Run.WP_bind]
    have hbase : (if input.length > DICT_EPOCH_THRESHOLD ∨ mainBase + input.length > U16_MAX then 1
        else mainBase) + input.length ≤ U16_MAX := by
      simp only [U16_MAX] at h ⊢
      split <;> omega
    refine Run.WP.mono (compressWithDictTable_outcome hN hlen hout (Nat.zero_le _) hbase h hmax
      (resetDict_below input ht)) fun (_, _, _) h' => h'.buffer.congr (iff_of_false ?_ id)
    intro href
    have := href.2.2
    unfold Target.isizeMax at this
    simp only [U16_MAX] at h
    omega
  · obtain ⟨⟨T, d⟩, hi, hT, -, -, hd⟩ := Run.WP_iff.mp (initDict_ok (w := 32) dict hN)
    obtain rfl := hd hwin
    rw [HashTable.new_ok 32 hN, Run.ret_bind, hi, Run.ret_bind]
    simp only [SliceSink.new_zero, Run.ret_bind, Run.WP_bind]
    exact Run.WP.mono (compressInternal_outcome_start hN hlen hout (Nat.zero_le _) hwin hno hmax
      hfalse hT) fun (_, _, _) h => h.buffer

/-- A block that follows others in a stream, with a caller's table. -/
theorem compressIntoSinkWithTable_outcome {useDict : Bool} {extDict : List UInt8}
    {inputPos offset : Nat} {output : SliceSink} {table : HashTableU32 DEFAULT_NODICT_ENTRIES}
    (haddr : t.Addressable [input, output.output]) (hpos : inputPos ≤ input.length)
    (hsink : output.pos ≤ output.output.length) (hwin : extDict.length ≤ WINDOW_SIZE)
    (hno : useDict = false → extDict = []) (hoff : extDict.length ≤ offset)
    (h32 : offset + input.length < 2 ^ 32) (ht : Before table (offset + inputPos))
    (hmax : getMaximumOutputSize t (input.length - inputPos) = .ret max) :
    (compressIntoSinkWithTable t useDict true false input inputPos output table extDict offset).WP
      fun (r, sink, _) => Outcome (input.length - inputPos) max (output.output.length - output.pos)
        (Refused t useDict offset input.length extDict.length) output r sink := by
  obtain ⟨hisize, -⟩ := haddr
  simp only [List.mem_cons, List.not_mem_nil, or_false, forall_eq_or_imp, forall_eq] at hisize
  have hmod := t.modulus_cases
  have hfalse : ∀ {P : Prop}, (false : Bool) = true → P := fun h => absurd h Bool.false_ne_true
  exact compressInternal_outcome (defaultNodict_valid t) hisize.1 hisize.2 hsink hpos
    (fun _ => by omega) hmax (fun _ => ⟨hwin, hoff⟩)
    (fun hw _ => span_le_of_w64 hw (by omega) hmax (by omega) hwin) hno (.inl rfl) hfalse hfalse
    fun _ => before_iff.mp ht

end

/-! ## Every route -/

section

variable {N : Nat} {t : Target} {input dict : List UInt8} {max : Nat}

/-- The bound on the blocks of `n` bytes, and how calls end: without a
compressor, on compressors after any calls, and with a caller's table. -/
theorem encoder_outcome (hN : ValidEntries t N) (hlen : input.length ≤ t.isizeMax)
    (hmax : getMaximumOutputSize t input.length = .ret max) (dict : List UInt8) :
    (input.length + input.length / 255 + 16 ≤ max ∧
      ∀ useDict d (output : List UInt8), t.Addressable [input, output] → d ≤ WINDOW_SIZE →
        max ≤ output.length → ¬ Refused t useDict d input.length d) ∧
    (∀ output : SliceSink, output.output.length ≤ t.isizeMax → output.pos ≤ output.output.length →
      ((compressIntoSinkWithDict t false input output []).WP fun (r, sink) =>
        Outcome input.length max (output.output.length - output.pos) False output r sink) ∧
      (compressIntoSinkWithDict t true input output dict).WP fun (r, sink) =>
        Outcome input.length max (output.output.length - output.pos)
          (MINMATCH ≤ dict.length ∧ Refused t true (min dict.length WINDOW_SIZE) input.length
            (min dict.length WINDOW_SIZE)) output r sink) ∧
    (∃ c₀, CompressorRefN.new N = .ret c₀ ∧ ∀ c, Relation.ReflTransGen (PlainCall t) c₀ c →
      ∀ output : List UInt8, output.length ≤ t.isizeMax →
        (c.compressInto t input output).WP fun (r, out, _) =>
          Outcome input.length max output.length False output r out) ∧
    (∃ c₀, CompressorN.new N = .ret c₀ ∧ ∀ c, Relation.ReflTransGen (OwningCall t) c₀ c →
      ∀ output : List UInt8, output.length ≤ t.isizeMax →
        (c.compressInto t input output).WP fun (r, out, _) =>
          Outcome input.length max output.length False output r out) ∧
    (∃ c₀, DictCompressorRefN.new t N dict = .ret c₀ ∧
      ∀ c, Relation.ReflTransGen (DictCall t) c₀ c →
      ∀ output : List UInt8, output.length ≤ t.isizeMax →
        (c.compressInto t input output).WP fun (r, out, _) =>
          Outcome input.length max output.length
            (Refused t true (trimDict dict).length input.length (trimDict dict).length) output r out) ∧
    (∃ c₀, DictCompressorN.new t N dict = .ret c₀ ∧
      ∀ c, Relation.ReflTransGen (OwningDictCall t) c₀ c →
      ∀ output : List UInt8, output.length ≤ t.isizeMax →
        (c.compressInto t input output).WP fun (r, out, _) =>
          Outcome input.length max output.length
            (Refused t true (trimDict dict).length input.length (trimDict dict).length) output r out) ∧
    ∀ useDict (before extDict : List UInt8) offset (output : SliceSink)
      (table : HashTableU32 DEFAULT_NODICT_ENTRIES),
      t.Addressable [before ++ input, output.output] → output.pos ≤ output.output.length →
      extDict.length ≤ WINDOW_SIZE → (useDict = false → extDict = []) → extDict.length ≤ offset →
      offset + (before ++ input).length < 2 ^ 32 → Before table (offset + before.length) →
      (compressIntoSinkWithTable t useDict true false (before ++ input) before.length output table
        extDict offset).WP fun (r, sink, _) =>
          Outcome input.length max (output.output.length - output.pos)
            (Refused t useDict offset (before ++ input).length extDict.length) output r sink := by
  have hplain : ∀ c : CompressorRefN N, Below c.table (Nat.max 1 c.streamOffset) →
      ∀ output : List UInt8, output.length ≤ t.isizeMax →
        (c.compressInto t input output).WP fun (r, out, _) =>
          Outcome input.length max output.length False output r out := fun c hc output hout => by
    rw [CompressorRefN.compressInto, Run.WP_bind]
    refine Run.WP.mono (compressPlainTable_outcome hN hlen hout hc hmax) fun x h => ?_
    obtain ⟨r, out', T, next⟩ := x
    exact h
  have hdict : ∀ c : DictCompressorRefN N, Below c.table c.mainBase ∧ c.dict = trimDict dict →
      ∀ output : List UInt8, output.length ≤ t.isizeMax →
        (c.compressInto t input output).WP fun (r, out, _) =>
          Outcome input.length max output.length
            (Refused t true (trimDict dict).length input.length (trimDict dict).length) output r
            out := fun c hc output hout => by
    rw [DictCompressorRefN.compressInto, Run.WP_bind, hc.2]
    refine Run.WP.mono (compressDictTables_outcome hN hlen hout (length_trimDict dict) hc.1 hmax)
      fun x h => ?_
    obtain ⟨r, out', T, pristine, base⟩ := x
    exact h
  refine ⟨⟨getMaximumOutputSize_ge hlen hmax, fun _ _ _ haddr hwin => not_refused haddr hwin hmax⟩,
    fun output hout hsink => ⟨?_, ?_⟩, ?_, ?_, ?_, ?_, ?_⟩
  · refine Run.WP.mono (compressIntoSinkWithDict_outcome hlen hout hsink (fun _ => rfl) hmax)
      fun _ h => h.congr (iff_of_false id fun h => absurd h.2.2.1 Bool.false_ne_true)
  · exact compressIntoSinkWithDict_outcome hlen hout hsink (fun h => absurd h.symm Bool.false_ne_true)
      hmax
  · exact ⟨_, CompressorRefN.new_ok hN, fun c hc => hplain c (plainCall_below hN hc)⟩
  · refine ⟨_, CompressorN.new_ok hN, fun c hc output hout => ?_⟩
    have hb := plainCall_below hN (hc.lift CompressorN.inner fun _ _ => OwningCall.inner)
    rw [CompressorN.compressInto, Run.WP_bind]
    refine Run.WP.mono (hplain c.inner hb output hout) fun x h => ?_
    obtain ⟨r, out', inner⟩ := x
    exact h
  · obtain ⟨pristine, hnew⟩ := DictCompressorRefN.new_ok hN dict
    exact ⟨_, hnew, fun c hc => hdict c (dictCall_below hN hc)⟩
  · obtain ⟨pristine, hnew⟩ := DictCompressorN.new_ok hN dict
    refine ⟨_, hnew, fun c hc output hout => ?_⟩
    have hb := dictCall_below hN (hc.lift borrow fun _ _ => OwningDictCall.borrow)
    have hd : c.dict = trimDict dict := hb.2
    rw [DictCompressorN.compressInto, Run.WP_bind, hd]
    refine Run.WP.mono (compressDictTables_outcome hN hlen hout (length_trimDict dict) hb.1 hmax)
      fun x h => ?_
    obtain ⟨r, out', T, pristine', base⟩ := x
    exact h
  · intro useDict before extDict offset output table haddr hsink hwin hno hoff h32 ht
    have hsub : (before ++ input).length - before.length = input.length := by
      rw [List.length_append, Nat.add_sub_cancel_left]
    rw [← hsub] at hmax ⊢
    exact compressIntoSinkWithTable_outcome haddr
      (by rw [List.length_append]; exact Nat.le_add_right _ _) hsink hwin hno hoff h32 ht hmax

/-- A dictionary compressor, after any calls: with room for the 37 bytes that 16 bytes may
take it uses at most 32 of them, and with less it leaves the buffer as it is. -/
theorem encoder_outcome_dict :
    let t : Target := ⟨.w32, false, false⟩
    let dict : List UInt8 := [1, 2, 3, 4, 5, 6, 7, 8, 9, 10, 11, 12]
    let input : List UInt8 := [1, 2, 3, 4, 5, 6, 7, 8, 9, 10, 11, 12, 13, 14, 15, 16]
    ∃ c₀, DictCompressorRefN.new t 256 dict = .ret c₀ ∧
      ∀ c, Relation.ReflTransGen (DictCall t) c₀ c →
        ((c.compressInto t input (List.replicate 37 0)).WP fun (r, _) => ∃ m, r = .ok m ∧ m ≤ 32) ∧
        (c.compressInto t input (List.replicate 36 0)).WP fun (r, out, _) =>
          r = .error .outputTooSmall ∧ out = List.replicate 36 0 := by
  intro t dict input
  have hmax : getMaximumOutputSize t input.length = .ret 37 := by decide
  obtain ⟨-, -, -, -, ⟨c₀, hnew, hcalls⟩, -⟩ :=
    encoder_outcome (N := 256) ⟨by decide, by decide⟩ (by decide) hmax dict
  have hnot : ¬ Refused t true (trimDict dict).length input.length (trimDict dict).length :=
    fun h => absurd h.2.2 (by decide)
  refine ⟨c₀, hnew, fun c hc => ⟨?_, ?_⟩⟩
  · exact (hcalls c hc (List.replicate 37 0) (by decide)).mono fun ⟨_, _, _⟩ h =>
      (h.ok (by decide) hnot).imp fun _ hm => ⟨hm.1, Nat.le_trans hm.2 (by decide)⟩
  · exact (hcalls c hc (List.replicate 36 0) (by decide)).mono fun ⟨_, _, _⟩ h =>
      h.tooSmall (by decide) hnot

theorem compressIntoWithDict_refused (hlen : input.length = 2 ^ 31 - 1) :
    ∃ out, compressIntoWithDict ⟨.w32, false, false⟩ input [] [1, 2, 3, 4] =
        .ret (.error .inputTooLarge, out) ∧
      getMaximumOutputSize ⟨.w32, false, false⟩ input.length = .ret 2362232031 ∧
      Target.Addressable ⟨.w32, false, false⟩ [input, []] := by
  have haddr : Target.Addressable ⟨.w32, false, false⟩ [input, []] := by
    refine ⟨?_, ?_⟩
    · simp only [List.mem_cons, List.not_mem_nil, or_false, forall_eq_or_imp, forall_eq, hlen]
      exact ⟨by decide, by decide⟩
    · simp only [List.map_cons, List.map_nil, List.sum_cons, List.sum_nil, hlen]
      decide
  have hmax : getMaximumOutputSize ⟨.w32, false, false⟩ input.length = .ret 2362232031 := by
    rw [hlen]
    rfl
  have hmin : min ([1, 2, 3, 4] : List UInt8).length WINDOW_SIZE = 4 := rfl
  have hw : (compressIntoSinkWithDict ⟨.w32, false, false⟩ true input ⟨[], 0⟩ [1, 2, 3, 4]).WP
      fun (r, _) => r = .error .inputTooLarge := by
    refine Run.WP.mono (compressIntoSinkWithDict_outcome (by rw [hlen]; decide) (by decide)
      (by decide) (fun h => absurd h.symm Bool.false_ne_true) hmax) fun (r, sink) h => ?_
    refine (h.refused ⟨by decide, rfl, rfl, ?_⟩).1
    rw [hlen, hmin]
    decide
  obtain ⟨⟨r, sink⟩, hrun, rfl⟩ := Run.WP_iff.mp hw
  refine ⟨sink.output, ?_, hmax, haddr⟩
  rw [compressIntoWithDict, SliceSink.new_zero, Run.ret_bind, hrun]
  rfl

/-- A 32-bit target refuses to compress half its address space after a
dictionary, also where there is no room for the block. -/
theorem encoder_refuses :
    ∃ out, compressIntoWithDict ⟨.w32, false, false⟩ (List.replicate (2 ^ 31 - 1) 0) [] [1, 2, 3, 4] =
        .ret (.error .inputTooLarge, out) ∧
      getMaximumOutputSize ⟨.w32, false, false⟩ (List.replicate (2 ^ 31 - 1) (0 : UInt8)).length =
        .ret 2362232031 ∧
      Target.Addressable ⟨.w32, false, false⟩ [List.replicate (2 ^ 31 - 1) 0, []] :=
  compressIntoWithDict_refused List.length_replicate

end

end Lz4rip.Proof.Encode
