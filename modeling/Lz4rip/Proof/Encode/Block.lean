import Lz4rip.Proof.Encode.Search

/-!
# The block loops

What the loops keep is a list of sequences that spells the text up to the
literals not yet written, whose bytes are what is written, and room for the
rest (`Written`). `compressBlock_ok` and `compressBlockWithDictTable_ok` say
that the bytes of a block are written that decodes to the input and obeys the
end-of-block rules (`Encodes`), and that the table stays below the end of the
input, whatever its entries were.
-/

namespace Lz4rip.Proof.Encode

open Lz4rip.Impl
open Spec (sequenceBytes lastBytes Block Conforms ConformsFrom)

/-! ## What is written -/

section

variable {w N : Nat} {t : Target} {m : Mode} {input extDict : List UInt8} {inputPos base : Nat}
  {o o' o'' : Rest}

/-- The sequences `ss` of the input from `inputPos` to `q` are written after
`o`, and there is room for the rest of the input. -/
structure Written (extDict input : List UInt8) (inputPos : Nat) (o : Rest)
    (ss : List Spec.Sequence) (o' : Rest) (q : Nat) : Prop where
  puts : Puts o (ss.flatMap sequenceBytes) o'
  spelled : Lz77.Spelled (extDict ++ input) (extDict.length + inputPos) ss (extDict.length + q)
  sizes : inputPos + Lz77.sizes ss = q
  conforms : ConformsFrom (extDict.length + inputPos) (input.length - inputPos) 0 ss
  room : input.length - q + (input.length - q) / 255 + 16 ≤ o'.rest.length

/-- The bytes of `b`, which decodes to the input from `inputPos` on, are
written after `o`. -/
structure Encodes (extDict input : List UInt8) (inputPos : Nat) (o : Rest) (b : Block) (o' : Rest) :
    Prop where
  puts : Puts o b.bytes o'
  expand : b.expand (extDict ++ input.take inputPos) = some (extDict ++ input)
  conforms : Conforms (extDict.length + inputPos) (input.length - inputPos) b

theorem Written.start
    (h : input.length - inputPos + (input.length - inputPos) / 255 + 16 ≤ o.rest.length) :
    Written extDict input inputPos o [] o inputPos :=
  ⟨.refl o, .nil, rfl, trivial, h⟩

theorem Written.snoc {ss : List Spec.Sequence} {s : Spec.Sequence} {q cur cur' : Nat}
    {table : HashTable w N} (h : Written extDict input inputPos o ss o' q)
    {readonly : Bool}
    (hs : Emitted readonly extDict input base o' q cur s table o'' cur') :
    Written extDict input inputPos o (ss ++ [s]) o'' cur' := by
  have hsz := h.sizes
  have hsize := hs.size
  have hstart := hs.start_le
  have hle := hs.cur_le
  have hoff := hs.spells.offset_le
  have hpos := hs.spells.offset_pos
  have hmax := hs.offset_le
  simp only [MFLIMIT, MAX_DISTANCE] at hstart hmax
  refine ⟨?_, ?_, ?_, Spec.conformsFrom_snoc h.conforms ⟨⟨hs.matchLen, by omega, by omega, by omega,
    by omega⟩, trivial⟩, ?_⟩
  · rw [List.flatMap_append, List.flatMap_singleton]
    exact h.puts.trans hs.puts
  · rw [← hsize, ← Nat.add_assoc]
    exact .snoc h.spelled hs.spells
  · have : Lz77.sizes (ss ++ [s]) = Lz77.sizes ss + s.size := by
      simp only [Lz77.sizes, List.map_append, List.sum_append, List.map_cons, List.map_nil,
        List.sum_cons, List.sum_nil, Nat.add_zero]
    omega
  · have := h.room
    have := hs.puts.rest
    have := length_sequenceBytes_le hs.matchLen
    have hlit : s.literals.length ≤ s.size := Nat.le_add_right _ _
    omega

/-- The last literals finish the block. -/
theorem Written.finish {ss : List Spec.Sequence} {q : Nat}
    (h : Written extDict input inputPos o ss o' q) (hq : q ≤ input.length)
    (hshort : input.length - inputPos < 13 → ss = []) :
    (handleLastLiterals t o' input q).WP fun o'' =>
      Encodes extDict input inputPos o ⟨ss, input.drop q⟩ o'' := by
  have hroom := h.room
  have hlen := length_lastBytes_le (input.drop q)
  rw [List.length_drop] at hlen
  refine (handleLastLiterals_ok hq (by omega)).mono fun o'' hp =>
    ⟨h.puts.trans hp, ?_, h.conforms, hshort⟩
  have := h.spelled.expand
  rw [List.take_length_add_append, List.take_length_add_append] at this
  rw [Block.expand, this, Option.map_some, List.append_assoc, List.take_append_drop]

/-! ## One match -/

/-- The state of the block loop between two searches. -/
def Between (t : Target) (carried readonly : Bool) (extDict input : List UInt8)
    (inputPos base : Nat) (o : Rest) (s : BlockState w N) : Prop :=
  (∃ ss, Written extDict input inputPos o ss s.rest s.literalStart) ∧
    Searching t carried readonly input base s.literalStart
      ⟨s.table, s.cur, 2 ^ INCREASE_STEPSIZE_BITSHIFT, s.forwardBytes, s.forwardHash⟩

/-- The state of the block loop before a match is written. -/
def AtMatch (readonly : Bool) (extDict input : List UInt8) (inputPos base : Nat) (o : Rest)
    (s : MatchState w N) : Prop :=
  (∃ ss, Written extDict input inputPos o ss s.block.rest s.block.literalStart) ∧
    Exits readonly input extDict base s.block.literalStart (.found ⟨s.block.table, s.block.cur, 0,
      s.block.forwardBytes, s.block.forwardHash⟩ s.source s.candidate s.offset)

/-- What one iteration of a block loop comes to. -/
def BlockSteps (t : Target) (carried readonly : Bool) (extDict input : List UInt8)
    (inputPos base : Nat) (o : Rest) (literalStart : Nat) :
    Run.Flow (BlockState w N) (Rest × HashTable w N) → Prop
  | .next s => Between t carried readonly extDict input inputPos base o s ∧ literalStart < s.literalStart
  | .done (o', table) => (∃ b, Encodes extDict input inputPos o b o') ∧
      Bounded readonly table (base + input.length)

/-- A block loop writes the block, as its iterations say. -/
theorem blockLoop_ok {carried readonly : Bool}
    {step : BlockState w N → Run (Run.Flow (BlockState w N) (Rest × HashTable w N))}
    (hstep : ∀ s, Between t carried readonly extDict input inputPos base o s →
      (step s).WP (BlockSteps t carried readonly extDict input inputPos base o s.literalStart))
    {s : BlockState w N} (h : Between t carried readonly extDict input inputPos base o s) :
    (Run.loop step (input.length + 1) s).WP fun (o', table) =>
      (∃ b, Encodes extDict input inputPos o b o') ∧
        Bounded readonly table (base + input.length) := by
  refine Run.WP.loop (Between t carried readonly extDict input inputPos base o)
    (fun s => input.length - s.literalStart) (fun s hs => (hstep s hs).mono fun x hx => ?_) _ _ h
    (by omega)
  cases x with
  | next s' =>
    have h₁ := hs.2.start_le
    have h₂ := hx.1.2.start_le
    have h₃ := hx.1.2.cur_le
    have h₄ := hx.2
    dsimp only at h₁ h₂ h₃
    exact ⟨hx.1, by omega⟩
  | done r => exact hx

/-- Writing a match goes on after it. -/
theorem AtMatch.emit {readonly : Bool} {s : MatchState w N} (hN : ValidEntries t N)
    (hb : base + input.length ≤ t.modulus) (h : AtMatch readonly extDict input inputPos base o s) :
    (emitMatch t readonly base input s.source s.block.table s.block.rest s.block.literalStart
      s.block.cur s.candidate s.offset).WP fun (table', rest', cur') =>
        (∃ ss, Written extDict input inputPos o ss rest' cur') ∧ Bounded readonly table' (base + cur') ∧
          s.block.literalStart < cur' ∧ cur' + 6 ≤ input.length := by
  obtain ⟨⟨ss, hw⟩, ⟨hstart, hcur⟩, ht, -, hc⟩ := h
  have hroom := hw.room
  refine (emitMatch_ok hN hc hstart hcur hb ht (by omega)).mono fun ⟨table', rest', cur'⟩ ⟨s', hs⟩ =>
    ⟨⟨_, hw.snoc hs⟩, hs.below, ?_, hs.cur_le⟩
  have := hs.cur_lt
  dsimp only at this hstart
  omega

end

/-! ## `compress_internal` -/

section

variable {w N : Nat} {t : Target} {m : Mode} {input extDict : List UInt8} {inputPos offset : Nat}
  {o : Rest}

theorem isRematch_ok {cur rc : Nat} (hc : cur + MFLIMIT ≤ input.length) :
    (isRematch t m input cur rc (neNat t (seg input cur 8))).WP fun r =>
      r = true → rc < cur ∧ seg input cur 4 = seg input rc 4 ∧
        (m.near = false → cur - rc ≤ MAX_DISTANCE) := by
  simp only [MFLIMIT] at hc
  refine .ite (fun hlt => ?_) fun _ h => absurd h Bool.false_ne_true
  rw [Run.WP_bind, first4_neNat t (by omega)]
  refine (rd32_ok t (by omega)).mono fun bytes hb => .ite (fun heq => ?_) fun _ h =>
    absurd h Bool.false_ne_true
  have l₁ : (seg input cur 4).length = 4 := length_seg (by omega)
  have l₂ : (seg input rc 4).length = 4 := length_seg (by omega)
  refine (withinDistance_ok (Nat.le_of_lt hlt)).mono fun r hr hr' =>
    ⟨hlt, neNat_inj t (l₁.trans l₂.symm) (heq.trans hb), fun hm => ?_⟩
  exact of_decide_eq_true ((hr hm).symm.trans hr')

theorem matchLoopStep_ok (S : Setup t m N input extDict offset) {s : MatchState w N}
    (h : AtMatch m.readonly extDict input inputPos offset o s) :
    (matchLoopStep t m input offset (input.length - MFLIMIT) s).WP fun
      | .next s' => AtMatch m.readonly extDict input inputPos offset o s' ∧
          s.block.literalStart < s'.block.literalStart
      | .done b => Between t (!m.carryHash) m.readonly extDict input inputPos offset o b ∧
          s.block.literalStart < b.literalStart := by
  have hfits := S.fits
  have hlen := S.input_le
  have hmod := t.modulus_cases
  have hmin := S.min_le
  simp only [Target.isizeMax, LZ4_MIN_LENGTH] at hlen hmin
  rw [matchLoopStep, Run.WP_bind]
  refine (h.emit S.entries hfits).mono fun x hx => ?_
  obtain ⟨table, rest, cur⟩ := x
  obtain ⟨hw, ht, hlt, hle⟩ := hx
  dsimp only at hw ht hlt hle ⊢
  have hbetween : ∀ bytes hash, hash < N →
      (cur + MFLIMIT ≤ input.length → bytes = neNat t (seg input cur 8)) →
      Between t (!m.carryHash) m.readonly extDict input inputPos offset o
        (⟨table, rest, cur, cur, bytes, hash⟩ : BlockState w N) := fun bytes hash hh hb =>
    ⟨hw, Nat.le_refl _, by dsimp only; omega, ht, Nat.le_refl _, Nat.le_add_right _ _,
      fun _ => hb, hh⟩
  refine .ite (fun hx => ?_) fun _ => .ite (fun hc => ?_) fun hc => ?_
  · obtain ⟨hu, hc⟩ := hx
    simp only [MFLIMIT] at hc
    simp only [Run.WP_bind]
    have hro : m.readonly = false := Bool.not_eq_true _ ▸ fun hr => hu (S.readonly hr).1
    refine (rd64_ok t (by omega)).mono fun bytes hb => (hashN_ok S.entries bytes).mono
      fun hash hh => (getAt_ok (ht hro) hh).mono fun rematch hr => ?_
    subst hb
    refine (isRematch_ok (by simp only [MFLIMIT]; omega)).mono fun r hr' => .ite (fun hit => ?_)
      fun _ => ⟨hbetween _ _ hh fun _ => rfl, hlt⟩
    obtain ⟨hrc, hseg, hnear⟩ := hr' hit
    obtain ⟨hle', hsub⟩ := wrappingSub_candidate hfits (by omega) hr (by omega) hrc
    have hb1 : offset + cur ≤ offset + cur + 1 := Nat.le_succ _
    have hdist : cur - t.wrappingSub rematch offset ≤ MAX_DISTANCE := by
      cases hm : m.near with
      | false => exact hnear hm
      | true =>
        have := S.near hm
        simp only [MAX_DISTANCE] at this ⊢
        omega
    simp only [Run.WP_bind, Target.WP_add, Run.WP_sub]
    refine ⟨by omega, (putAt_ok (ht.mono hb1 hro) hh (by omega)).mono fun table' ht' =>
      ⟨Nat.le_of_lt hrc, ⟨hw, ⟨Nat.le_refl _, by simp only [MFLIMIT]; omega⟩, fun _ => ht', ?_, ?_⟩,
        hlt⟩⟩
    · exact h.2.2.2.1
    · rw [asU16, Nat.mod_eq_of_lt (by simp only [MAX_DISTANCE] at hdist; omega)]
      dsimp only
      exact ⟨⟨_, .input, by omega⟩, by omega, hdist, by omega, by omega, hseg⟩
  · simp only [MFLIMIT] at hc
    simp only [Run.WP_bind]
    exact (rd64_ok t (by omega)).mono fun bytes hb => (hashN_ok S.entries bytes).mono
      fun hash hh => ⟨hbetween _ _ hh fun _ => hb, hlt⟩
  · exact ⟨hbetween _ _ h.2.2.2.1 fun hc' => absurd (Nat.le_sub_of_add_le hc') hc, hlt⟩

/-- One iteration of the block loop. -/
theorem blockStep_ok (S : Setup t m N input extDict offset) (hlong : 13 ≤ input.length - inputPos)
    {s : BlockState w N} (h : Between t (!m.carryHash) m.readonly extDict input inputPos offset o s) :
    (blockStep t m input extDict offset (offset - extDict.length) (input.length - MFLIMIT) s).WP
      (BlockSteps t (!m.carryHash) m.readonly extDict input inputPos offset o s.literalStart) := by
  obtain ⟨⟨ss, hw⟩, hs⟩ := h
  have hstart := hs.start_le
  have hcur := hs.cur_le
  dsimp only at hstart hcur
  rw [blockStep, Run.WP_bind]
  refine (search_ok S hs).mono fun e he => ?_
  cases e with
  | ended table =>
    rw [Run.WP_bind]
    exact (hw.finish (by omega) (by omega)).mono fun o' ho => ⟨⟨_, ho⟩, he⟩
  | found f source candidate off =>
    rw [Run.WP_bind]
    have hm : AtMatch m.readonly extDict input inputPos offset o (⟨⟨f.table, s.rest, s.literalStart, f.cur,
        f.forwardBytes, f.forwardHash⟩, source, candidate, off⟩ : MatchState w N) := ⟨⟨ss, hw⟩, he⟩
    refine Run.WP.loop (fun x => AtMatch m.readonly extDict input inputPos offset o x ∧
        s.literalStart ≤ x.block.literalStart) (fun x => input.length - x.block.literalStart)
      (fun x hx => (matchLoopStep_ok S hx.1).mono fun y hy => ?_) _ _ ⟨hm, Nat.le_refl _⟩
      (by dsimp only; omega)
    cases y with
    | next x' =>
      have := hy.1.2.1
      exact ⟨⟨hy.1, by omega⟩, by omega⟩
    | done b => exact ⟨hy.1, by omega⟩

theorem insertFirst_ok {readonly start : Bool} {table : HashTable w N} {b : Nat}
    (hN : ValidEntries t N) (hlen : 8 ≤ input.length) (hb : 0 < b) (ht : Bounded readonly table b) :
    (insertFirst t readonly start input table).WP (Bounded readonly · b) := by
  have := t.modulus_cases
  refine .ite (fun _ => ?_) fun _ => ht
  rw [Run.WP_bind]
  exact (getHashAt_ok hN (by omega)).mono fun hash hh => insertAt_ok ht hh (by omega) (by omega)

/-- Whatever the entries of the table, `compress_internal` writes a block of
the input. -/
theorem compressBlock_ok {table : HashTable w N} (hN : ValidEntries t N)
    (hlen : input.length ≤ t.isizeMax) (hfits : offset + input.length ≤ t.modulus)
    (hdict : extDict.length ≤ offset)
    (hnear : m.near → extDict.length + input.length ≤ MAX_DISTANCE + 1)
    (hreadonly : m.readonly → m.useDict ∧ offset = extDict.length ∧
      extDict.length + input.length < U16_MAX) (hpos : inputPos ≤ input.length)
    (ht : Bounded m.readonly table (max 1 (offset + inputPos)))
    (hroom : input.length - inputPos + (input.length - inputPos) / 255 + 16 ≤ o.rest.length) :
    (compressBlock t m input inputPos o table extDict offset).WP fun (o', table') =>
      (∃ b, Encodes extDict input inputPos o b o') ∧
        Bounded m.readonly table' (max 1 (offset + input.length)) := by
  have hw : Written extDict input inputPos o [] o inputPos := .start hroom
  refine .ite (fun _ => ?_) fun hshort => ?_
  · rw [Run.WP_bind]
    exact (hw.finish hpos fun _ => rfl).mono fun o' ho => ⟨⟨_, ho⟩, ht.mono (by omega)⟩
  · simp only [LZ4_MIN_LENGTH, MFLIMIT] at hshort
    have S : Setup t m N input extDict offset :=
      ⟨hN, hlen, by simp only [LZ4_MIN_LENGTH, MFLIMIT]; omega, hfits, hdict, hnear, hreadonly⟩
    have hmod := t.modulus_cases
    simp only [Target.isizeMax] at hlen
    simp only [Run.WP_bind, Run.WP_sub, MFLIMIT]
    refine ⟨hdict, by omega, (insertFirst_ok hN (by omega) (by omega) ht).mono fun table' ht' => ?_⟩
    generalize hcur : (if decide (inputPos = 0 ∧ offset = 0) then 1 else inputPos) = cur
    have hc : inputPos ≤ cur ∧ cur + MFLIMIT ≤ input.length ∧ max 1 (offset + inputPos) = offset + cur := by
      rw [← hcur]
      simp only [decide_eq_true_eq, MFLIMIT]
      split <;> omega
    rw [hc.2.2] at ht'
    simp only [MFLIMIT] at hc
    refine (rd64_ok t (by omega)).mono fun bytes hb => (hashN_ok hN bytes).mono fun hash hh => ?_
    have hlong : 13 ≤ input.length - inputPos := by omega
    have hb : Between t (!m.carryHash) m.readonly extDict input inputPos offset o
        (⟨table', o, inputPos, cur, bytes, hash⟩ : BlockState w N) :=
      ⟨⟨[], hw⟩, hc.1, by dsimp only; omega, ht', Nat.le_refl _, Nat.le_add_right _ _,
        fun _ _ => hb, hh⟩
    exact (blockLoop_ok (fun s hs => blockStep_ok S hlong hs) hb).mono fun r hr =>
      ⟨hr.1, hr.2.mono (Nat.le_max_right _ _)⟩

end

/-! ## `compress_with_dict_table` -/

section

variable {w N : Nat} {t : Target} {input extDict : List UInt8} {mainBase : Nat} {o : Rest}

theorem dictBlockStep_ok {dictTable : HashTable w N} (S : DictSetup t N input extDict mainBase)
    {s : BlockState w N} (h : Between t false false extDict input 0 mainBase o s) :
    (dictBlockStep t input extDict dictTable extDict.length mainBase (input.length - MFLIMIT) s).WP
      (BlockSteps t false false extDict input 0 mainBase o s.literalStart) := by
  have hmin := S.min_le
  simp only [LZ4_MIN_LENGTH, MFLIMIT] at hmin
  obtain ⟨⟨ss, hw⟩, hs⟩ := h
  have hstart := hs.start_le
  have hcur := hs.cur_le
  dsimp only at hstart hcur
  rw [dictBlockStep, Run.WP_bind]
  refine (dictSearch_ok S dictTable hs).mono fun e he => ?_
  cases e with
  | ended table =>
    rw [Run.WP_bind]
    exact (hw.finish (by omega) (by omega)).mono fun o' ho => ⟨⟨_, ho⟩, he⟩
  | found f source candidate off =>
    have hm : AtMatch false extDict input 0 mainBase o (⟨⟨f.table, s.rest, s.literalStart, f.cur,
        f.forwardBytes, f.forwardHash⟩, source, candidate, off⟩ : MatchState w N) := ⟨⟨ss, hw⟩, he⟩
    rw [Run.WP_bind]
    refine (hm.emit S.entries S.fits).mono fun ⟨table, rest, cur⟩ ⟨hw', ht, hlt, hle⟩ => ?_
    dsimp only at hw' ht hlt hle ⊢
    have hbetween : ∀ hash, hash < N → Between t false false extDict input 0 mainBase o
        (⟨table, rest, cur, cur, f.forwardBytes, hash⟩ : BlockState w N) := fun hash hh =>
      ⟨hw', Nat.le_refl _, by dsimp only; omega, ht, Nat.le_refl _, Nat.le_add_right _ _,
        fun hc => absurd hc Bool.false_ne_true, hh⟩
    refine .ite (fun hc => ?_) fun _ => ⟨hbetween _ he.2.2.1, hlt⟩
    simp only [MFLIMIT] at hc
    rw [Run.WP_bind]
    exact (getHashAt_ok S.entries (by omega)).mono fun hash hh => ⟨hbetween _ hh, hlt⟩

/-- Whatever the entries of both tables, `compress_with_dict_table` writes a
block of the input. -/
theorem compressBlockWithDictTable_ok {table dictTable : HashTable w N} (hN : ValidEntries t N)
    (hlen : input.length ≤ t.isizeMax) (hfits : mainBase + input.length ≤ t.modulus)
    (hnear : extDict.length + input.length < U16_MAX) (ht : Below table mainBase)
    (hroom : input.length + input.length / 255 + 16 ≤ o.rest.length) :
    (compressBlockWithDictTable t input o table dictTable extDict extDict.length mainBase).WP
      fun (o', table') => (∃ b, Encodes extDict input 0 o b o') ∧
        Below table' (mainBase + input.length) := by
  have hw : Written extDict input 0 o [] o 0 := .start hroom
  refine .ite (fun _ => ?_) fun hshort => ?_
  · rw [Run.WP_bind]
    exact (hw.finish (Nat.zero_le _) fun _ => rfl).mono fun o' ho =>
      ⟨⟨_, ho⟩, ht.mono (Nat.le_add_right _ _)⟩
  · simp only [LZ4_MIN_LENGTH, MFLIMIT] at hshort
    have S : DictSetup t N input extDict mainBase :=
      ⟨hN, hlen, by simp only [LZ4_MIN_LENGTH, MFLIMIT]; omega, hfits, hnear⟩
    have hb : mainBase ≤ mainBase + 1 := Nat.le_succ _
    simp only [Run.WP_bind, Run.WP_sub, MFLIMIT]
    refine ⟨by omega, (getHashAt_ok hN (by omega)).mono fun hash hh =>
      (putAt_ok (ht.mono hb) hh (Nat.lt_succ_self _)).mono fun table' ht' =>
      (getHashAt_ok hN (by omega)).mono fun hash' hh' => ?_⟩
    refine Run.WP.mono (blockLoop_ok (fun s hs => dictBlockStep_ok S hs) ⟨⟨[], hw⟩, Nat.zero_le _, ?_,
      fun _ => ht', Nat.le_refl _, Nat.le_add_right _ _, fun hc => absurd hc Bool.false_ne_true,
      hh'⟩) fun r hr => ⟨hr.1, hr.2 rfl⟩
    dsimp only
    omega

end

end Lz4rip.Proof.Encode
