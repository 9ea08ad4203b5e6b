import Lz4rip.Proof.Encode.Match

/-!
# The searches

A search keeps its table below the position it is at (`Searching`), so that
whatever an entry says, a wrapped difference that passes the tests of the code
is the distance to a position before. It is left at the end of the block or
with a `Candidate` (`Exits`): `searchStep_ok` for `compress_internal`,
`dictSearchStep_ok` for `compress_with_dict_table`, and `search_ok`,
`dictSearch_ok` for the loops.
-/

namespace Lz4rip.Proof.Encode

open Lz4rip.Impl

/-- What holds in `compress_internal` past its tests. -/
structure Setup (t : Target) (m : Mode) (N : Nat) (input extDict : List UInt8) (offset : Nat) :
    Prop where
  entries : ValidEntries t N
  input_le : input.length ≤ t.isizeMax
  min_le : LZ4_MIN_LENGTH ≤ input.length
  fits : offset + input.length ≤ t.modulus
  dict_le : extDict.length ≤ offset
  near : m.near → extDict.length + input.length ≤ MAX_DISTANCE + 1
  readonly : m.readonly → m.useDict ∧ offset = extDict.length ∧
    extDict.length + input.length < U16_MAX

section

variable {w N : Nat} {t : Target} {m : Mode} {input extDict : List UInt8} {base literalStart : Nat}

/-- What a search keeps. The bytes at the position are carried if `carried`. -/
structure Searching (t : Target) (carried readonly : Bool) (input : List UInt8)
    (base literalStart : Nat) (s : Search w N) : Prop where
  start_le : literalStart ≤ s.cur
  cur_le : s.cur ≤ input.length
  below : Bounded readonly s.table (base + s.cur)
  count_ge : 8 ≤ s.nonMatchCount
  count_le : s.nonMatchCount ≤ 8 + s.cur
  bytes : carried → s.cur + MFLIMIT ≤ input.length →
    s.forwardBytes = neNat t (seg input s.cur 8)
  hash : s.forwardHash < N

/-- What a search is left with. -/
def Exits (readonly : Bool) (input extDict : List UInt8) (base literalStart : Nat) :
    SearchExit w N → Prop
  | .ended table => Bounded readonly table (base + input.length)
  | .found s source candidate offset =>
    (literalStart ≤ s.cur ∧ s.cur + MFLIMIT ≤ input.length) ∧
      Bounded readonly s.table (base + s.cur + 1) ∧
      s.forwardHash < N ∧ Candidate extDict input source s.cur candidate offset 4

/-- What one position of a search comes to. -/
def Steps (t : Target) (carried readonly : Bool) (input extDict : List UInt8)
    (base literalStart cur : Nat) : Run.Flow (Search w N) (SearchExit w N) → Prop
  | .next s => Searching t carried readonly input base literalStart s ∧ cur < s.cur
  | .done e => Exits readonly input extDict base literalStart e

theorem withinDistance_ok {near : Bool} {a b : Nat} (h : b ≤ a) :
    (withinDistance near a b).WP fun r => near = false → r = decide (a - b ≤ MAX_DISTANCE) := by
  unfold withinDistance
  cases near with
  | true => exact fun h => absurd h (by decide)
  | false =>
    simp only [Bool.false_eq_true, if_false, Run.WP_bind, Run.WP_sub, Run.pure_eq, Run.WP_ret]
    exact ⟨h, fun _ => trivial⟩

theorem inInput_ok {cur nextCur inputPos : Nat} (h : inputPos < nextCur → inputPos ≤ cur) :
    (inInput m cur nextCur inputPos).WP fun r =>
      (r = true → inputPos < nextCur) ∧ (r = false → m.useDict → ¬ inputPos < nextCur) := by
  unfold inInput
  refine .ite (fun hp => ?_) fun hp => ⟨fun hr => absurd hr Bool.false_ne_true, fun _ _ => hp⟩
  unfold withinDistance
  refine .ite (fun _ => ⟨fun _ => hp, fun hr => absurd hr.symm Bool.false_ne_true⟩) fun hm => ?_
  simp only [Run.WP_bind, Run.WP_sub, Run.pure_eq, Run.WP_ret]
  refine ⟨h hp, fun _ => hp, fun _ hu => absurd ?_ hm⟩
  rw [Mode.carryHash, hu]
  cases m.hasOffset <;> rfl

theorem currBytes_ok {cur nextCur bytes : Nat} (hc : cur < nextCur)
    (hn : nextCur + 11 ≤ input.length)
    (hb : m.carryHash = false → bytes = neNat t (seg input cur 8)) :
    (currBytes t m input cur nextCur bytes).WP (· = neNat t (seg input cur 4)) := by
  unfold currBytes
  refine .ite (fun _ => ?_) fun h => ?_
  · rw [Nat.min_eq_left (Nat.le_of_lt hc)]
    exact rd32_ok t (by omega)
  · rw [Run.pure_eq, Run.WP_ret, hb (Bool.not_eq_true _ ▸ h), first4_neNat t (by omega)]

/-- The comparison with a position `offset` back in the text. -/
theorem probe_ok {carried readonly near : Bool} {source : List UInt8} {k candidate cur at' from' nextCur : Nat}
    {curr : Run Nat} {s : Search w N} (hk : Source extDict input source k)
    (hd : k + candidate + (at' - from') = extDict.length + s.cur) (ho : from' < at')
    (hnear : near → at' - from' ≤ MAX_DISTANCE) (hc : candidate + 4 ≤ source.length)
    (hcur : literalStart ≤ s.cur ∧ s.cur + MFLIMIT ≤ input.length)
    (hcurr : curr.WP (· = neNat t (seg input s.cur 4))) (hb : Bounded readonly s.table (base + s.cur + 1))
    (hnext : Searching t carried readonly input base literalStart { s with cur := nextCur })
    (hlt : s.cur < nextCur) (hcs : cur = s.cur) :
    (probe t near source candidate curr at' from' nextCur s).WP
      (Steps t carried readonly input extDict base literalStart cur) := by
  subst hcs
  simp only [MFLIMIT] at hcur
  rw [probe, Run.WP_bind]
  refine (rd32_ok t hc).mono fun candBytes h₁ => ?_
  rw [Run.WP_bind]
  refine hcurr.mono fun bytes h₂ => .ite (fun heq => ?_) fun _ => ⟨hnext, hlt⟩
  rw [Run.WP_bind]
  refine (withinDistance_ok (Nat.le_of_lt ho)).mono fun r hr => .ite (fun hr' => ?_) fun _ =>
    ⟨hnext, hlt⟩
  have hle : at' - from' ≤ MAX_DISTANCE := by
    cases near with
    | true => exact hnear rfl
    | false => exact of_decide_eq_true ((hr rfl).symm.trans hr')
  rw [Run.WP_bind, Run.WP_sub]
  refine ⟨Nat.le_of_lt ho, hcur, hb, hnext.hash, ?_⟩
  rw [asU16, Nat.mod_eq_of_lt (by simp only [MAX_DISTANCE] at hle; omega)]
  refine ⟨⟨k, hk, hd⟩, by omega, hle, by omega, hc, ?_⟩
  have l₁ : (seg source candidate 4).length = 4 := length_seg hc
  have l₂ : (seg input s.cur 4).length = 4 := length_seg (by omega)
  exact (neNat_inj t (l₁.trans l₂.symm) (by rw [← h₁, ← h₂, heq])).symm

theorem Search.hash_ok {carried readonly : Bool} {s : Search w N} (hN : ValidEntries t N)
    (h : Searching t carried readonly input base literalStart s) : (s.hash t m).WP (· < N) :=
  .ite (fun _ => h.hash) fun _ => hashN_ok hN _

/-- An entry below the position is not taken for one of the input unless it is
one. -/
theorem wrappingSub_candidate {cur candidate nextCur : Nat} (hf : base + input.length ≤ t.modulus)
    (hn : nextCur ≤ input.length) (hc : candidate < base + cur) (hcur : cur ≤ input.length)
    (h : t.wrappingSub candidate base < nextCur) :
    base ≤ candidate ∧ t.wrappingSub candidate base = candidate - base := by
  by_cases hle : base ≤ candidate
  · exact ⟨hle, t.wrappingSub_of_le hle (by omega)⟩
  · rw [t.wrappingSub_of_lt (by omega) (by omega)] at h
    omega

end

/-! ## `compress_internal` -/

section

variable {w N : Nat} {t : Target} {m : Mode} {input extDict : List UInt8}
  {offset literalStart : Nat}

theorem searchStep_ok (S : Setup t m N input extDict offset) {s : Search w N}
    (h : Searching t (!m.carryHash) m.readonly input offset literalStart s) :
    (searchStep t m input extDict offset (offset - extDict.length) (input.length - MFLIMIT) s).WP
      (Steps t (!m.carryHash) m.readonly input extDict offset literalStart s.cur) := by
  obtain ⟨hstart, hcur, hbelow, hge, hle, hbytes, hhash⟩ := id h
  have hmin := S.min_le
  have hlen := S.input_le
  have hfits := S.fits
  have hdict := S.dict_le
  have hmod := t.modulus_cases
  simp only [LZ4_MIN_LENGTH, MFLIMIT, Target.isizeMax] at hmin hlen hbytes ⊢
  simp only [searchStep, INCREASE_STEPSIZE_BITSHIFT, Run.WP_bind, Target.WP_add, Nat.reducePow]
  refine ⟨by omega, by omega, .ite (fun _ => hbelow.mono (by omega)) fun hend => ?_⟩
  generalize hnext : s.cur + s.nonMatchCount / 8 = nextCur at hend ⊢
  have hlt : s.cur < nextCur := by omega
  have hn : nextCur ≤ input.length := by omega
  simp only [Run.WP_bind]
  refine (Search.hash_ok S.entries h).mono fun hash hh => (hbelow.getAt_ok hh).mono
    fun candidate hc' => (rd64_ok t (by omega)).mono fun forwardBytes hf =>
    (hashN_ok S.entries forwardBytes).mono fun forwardHash hfh => ?_
  have hb1 : offset + s.cur ≤ offset + s.cur + 1 := Nat.le_succ _
  refine (insertAt_ok (hbelow.mono hb1) hh (by omega) (by omega)).mono fun table ht => ?_
  rw [Run.WP_assert]
  have hc : ¬ m.readonly → candidate < offset + s.cur := fun hr => hc' (Bool.not_eq_true _ ▸ hr)
  refine ⟨or_iff_not_imp_left.mpr fun hr => Nat.le_of_lt (hc hr), ?_⟩
  have hb2 : offset + s.cur + 1 ≤ offset + nextCur := by omega
  have hcount : 8 ≤ s.nonMatchCount + 1 ∧ s.nonMatchCount + 1 ≤ 8 + nextCur := by omega
  have hs' : Searching t (!m.carryHash) m.readonly input offset literalStart
      (⟨table, nextCur, s.nonMatchCount + 1, forwardBytes, forwardHash⟩ : Search w N) :=
    ⟨Nat.le_trans hstart (Nat.le_of_lt hlt), hn, ht.mono hb2, hcount.1, hcount.2, fun _ _ => hf, hfh⟩
  have hcurr : (currBytes t m input s.cur nextCur s.forwardBytes).WP (· = neNat t (seg input s.cur 4)) :=
    currBytes_ok hlt (by omega) fun hm => hbytes (by rw [hm]; rfl) (by omega)
  refine .ite (fun hr => .ite (fun _ => ⟨hs', hlt⟩) fun hd => ?_) fun hr => ?_
  · -- The dictionary's own table.
    obtain ⟨-, rfl, hu⟩ := S.readonly hr
    simp only [Run.WP_bind, Run.WP_sub, Run.WP_assert, Nat.sub_self]
    simp only [U16_MAX] at hu
    refine ⟨by omega, by simp only [MAX_DISTANCE]; omega, trivial, ?_⟩
    exact probe_ok .dict (by dsimp only; omega) (by omega) (fun _ => by simp only [MAX_DISTANCE]; omega)
      (by omega) ⟨hstart, by simp only [MFLIMIT]; omega⟩ hcurr ht hs' hlt rfl
  · have hc := hc hr
    rw [Run.WP_bind]
    refine (inInput_ok fun hp => ?_).mono fun r hr' => .ite (fun hin => ?_) fun hin => ?_
    · have := wrappingSub_candidate hfits hn hc hcur hp
      omega
    · -- A position of the input.
      have hp := hr'.1 hin
      have hc' := wrappingSub_candidate hfits hn hc hcur hp
      exact probe_ok .input (by dsimp only; omega) (by omega)
        (fun hm => by have := S.near hm; simp only [MAX_DISTANCE] at this ⊢; omega) (by omega)
        ⟨hstart, by simp only [MFLIMIT]; omega⟩ hcurr ht hs' hlt rfl
    · refine .ite (fun hx => ?_) fun _ => ⟨hs', hlt⟩
      obtain ⟨hu, hd, hd'⟩ := hx
      -- A position of the dictionary, before the input.
      have hp := hr'.2 (Bool.not_eq_true _ ▸ hin) hu
      have hbefore : candidate < offset := by
        refine Nat.lt_of_not_le fun hle => hp ?_
        rw [t.wrappingSub_of_le hle (by omega)]
        omega
      exact probe_ok .dict (by dsimp only; omega) (by omega)
        (fun hm => by have := S.near hm; simp only [MAX_DISTANCE] at this ⊢; omega) hd'
        ⟨hstart, by simp only [MFLIMIT]; omega⟩ hcurr ht hs' hlt rfl

end

/-! ## `compress_with_dict_table` -/

section

variable {w N : Nat} {t : Target} {input extDict : List UInt8} {mainBase literalStart : Nat}

/-- What holds in `compress_with_dict_table` past its tests. -/
structure DictSetup (t : Target) (N : Nat) (input extDict : List UInt8) (mainBase : Nat) : Prop where
  entries : ValidEntries t N
  input_le : input.length ≤ t.isizeMax
  min_le : LZ4_MIN_LENGTH ≤ input.length
  fits : mainBase + input.length ≤ t.modulus
  near : extDict.length + input.length < U16_MAX

theorem dictProbe_ok {dictTable : HashTable w N} {hash nextCur : Nat} {s : Search w N}
    (S : DictSetup t N input extDict mainBase) (hh : hash < N)
    (hcur : literalStart ≤ s.cur ∧ s.cur + MFLIMIT ≤ input.length)
    (hb : Bounded false s.table (mainBase + s.cur + 1))
    (hnext : Searching t false false input mainBase literalStart { s with cur := nextCur })
    (hlt : s.cur < nextCur) :
    (dictProbe t input extDict dictTable extDict.length hash nextCur s).WP
      (Steps t false false input extDict mainBase literalStart s.cur) := by
  have hnear := S.near
  simp only [U16_MAX, MFLIMIT] at hnear hcur
  rw [dictProbe, Run.WP_bind]
  refine (getAt_ok (below_two_pow dictTable) hh).mono fun candidate _ => .ite (fun hd => ?_) fun _ =>
    ⟨hnext, hlt⟩
  simp only [Run.WP_bind, Run.WP_sub, Run.WP_assert, MAX_DISTANCE]
  refine ⟨by omega, by omega, probe_ok .dict (by omega) (by omega) (fun _ => ?_) hd hcur ?_ hb hnext
    hlt rfl⟩
  · simp only [MAX_DISTANCE]
    omega
  · rw [Nat.min_eq_left (Nat.le_of_lt hlt)]
    exact rd32_ok t (by omega)

theorem dictSearchStep_ok {dictTable : HashTable w N} {s : Search w N}
    (S : DictSetup t N input extDict mainBase)
    (h : Searching t false false input mainBase literalStart s) :
    (dictSearchStep t input extDict dictTable extDict.length mainBase (input.length - MFLIMIT) s).WP
      (Steps t false false input extDict mainBase literalStart s.cur) := by
  obtain ⟨hstart, hcur, hbelow, hge, hle, -, hhash⟩ := id h
  have hmin := S.min_le
  have hlen := S.input_le
  have hfits := S.fits
  have hnear := S.near
  have hmod := t.modulus_cases
  simp only [LZ4_MIN_LENGTH, MFLIMIT, Target.isizeMax, U16_MAX] at hmin hlen hnear ⊢
  simp only [dictSearchStep, INCREASE_STEPSIZE_BITSHIFT, Run.WP_bind, Target.WP_add, Nat.reducePow]
  refine ⟨by omega, by omega, .ite (fun _ => hbelow.mono (by omega)) fun hend => ?_⟩
  generalize hnext : s.cur + s.nonMatchCount / 8 = nextCur at hend ⊢
  have hlt : s.cur < nextCur := by omega
  have hn : nextCur ≤ input.length := by omega
  simp only [Run.WP_bind, Target.WP_add]
  have hb1 : mainBase + s.cur ≤ mainBase + s.cur + 1 := Nat.le_succ _
  refine (getHashAt_ok S.entries (by omega)).mono fun forwardHash hfh => (getAt_ok (hbelow rfl) hhash).mono
    fun candidate hc => ⟨by omega, (putAt_ok (hbelow.mono hb1 rfl) hhash (by omega)).mono
    fun table htable => ?_⟩
  have ht : Bounded false table (mainBase + s.cur + 1) := fun _ => htable
  have hb2 : mainBase + s.cur + 1 ≤ mainBase + nextCur := by omega
  have hcount : 8 ≤ s.nonMatchCount + 1 ∧ s.nonMatchCount + 1 ≤ 8 + nextCur := by omega
  have hs' : Searching t false false input mainBase literalStart
      (⟨table, nextCur, s.nonMatchCount + 1, s.forwardBytes, forwardHash⟩ : Search w N) :=
    ⟨Nat.le_trans hstart (Nat.le_of_lt hlt), hn, ht.mono hb2, hcount.1, hcount.2,
      fun hc => absurd hc Bool.false_ne_true, hfh⟩
  have hcur' : literalStart ≤ s.cur ∧ s.cur + MFLIMIT ≤ input.length :=
    ⟨hstart, by simp only [MFLIMIT]; omega⟩
  have hprobe : (dictProbe t input extDict dictTable extDict.length s.forwardHash nextCur
      ⟨table, s.cur, s.nonMatchCount + 1, s.forwardBytes, forwardHash⟩).WP
      (Steps t false false input extDict mainBase literalStart s.cur) :=
    dictProbe_ok S hhash hcur' ht hs' hlt
  refine .ite (fun hx => ?_) fun _ => hprobe
  obtain ⟨hm, hp⟩ := hx
  rw [t.wrappingSub_of_le hm (by omega)] at hp ⊢
  simp only [Run.WP_bind, Run.WP_assert]
  have hk : Source extDict input input extDict.length := .input
  refine ⟨by omega, Run.WP.mono (probe_ok hk (by dsimp only; omega) (by omega) (fun _ => ?_) (by omega)
    hcur' ?_ ht hs' hlt rfl) fun x hx => ?_⟩
  · simp only [MAX_DISTANCE]
    omega
  · rw [Nat.min_eq_left (Nat.le_of_lt hlt)]
    exact rd32_ok t (by omega)
  · cases x with
    | next _ => exact hprobe
    | done e => exact hx

end

/-! ## The loops -/

section

variable {w N : Nat} {t : Target} {m : Mode} {input extDict : List UInt8} {literalStart : Nat}

/-- A search whose steps go on ends, as the steps say. -/
theorem searchLoop_ok {carried readonly : Bool} {base : Nat}
    {step : Search w N → Run (Run.Flow (Search w N) (SearchExit w N))}
    (hstep : ∀ s, Searching t carried readonly input base literalStart s →
      (step s).WP (Steps t carried readonly input extDict base literalStart s.cur))
    {s : Search w N} (h : Searching t carried readonly input base literalStart s) :
    (Run.loop step (input.length + 1) s).WP (Exits readonly input extDict base literalStart) := by
  refine Run.WP.loop (Searching t carried readonly input base literalStart) (fun s => input.length - s.cur)
    (fun s hs => (hstep s hs).mono fun x hx => ?_) _ s h (by omega)
  cases x with
  | next s' =>
    have := hx.1.cur_le
    exact ⟨hx.1, by have := hx.2; omega⟩
  | done e => exact hx

theorem search_ok {offset : Nat} (S : Setup t m N input extDict offset) {s : Search w N}
    (h : Searching t (!m.carryHash) m.readonly input offset literalStart s) :
    (Run.loop (searchStep t m input extDict offset (offset - extDict.length)
      (input.length - MFLIMIT)) (input.length + 1) s).WP
      (Exits m.readonly input extDict offset literalStart) :=
  searchLoop_ok (fun _ => searchStep_ok S) h

theorem dictSearch_ok {mainBase : Nat} (S : DictSetup t N input extDict mainBase)
    (dictTable : HashTable w N) {s : Search w N}
    (h : Searching t false false input mainBase literalStart s) :
    (Run.loop (dictSearchStep t input extDict dictTable extDict.length mainBase
      (input.length - MFLIMIT)) (input.length + 1) s).WP
      (Exits false input extDict mainBase literalStart) :=
  searchLoop_ok (fun _ => dictSearchStep_ok S) h

end

end Lz4rip.Proof.Encode
