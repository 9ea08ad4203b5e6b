import Lz4rip.Proof.Decode.Decompress
import Lz4rip.Proof.Encode.Block

/-!
# The block encoder

`compressInternal_ok` and `compressWithDictTable_ok`: within what the code
asserts (`Permitted`), a block of the input is written to the sink
(`Compressed`), unless the sink is too small. `compressInternal_ret` and
`compressWithDictTable_ret` say the same of any call that returns. What is
written is a block of the input (`Compressed.isBlockOf`).
`compressIntoSinkWithTable_roundtrip` is the round trip through a caller's
table, whatever its entries are.
-/

namespace Lz4rip.Proof.Encode

open Lz4rip.Impl
open Spec (Block Conforms)

section

variable {w N : Nat} {t : Target} {m : Mode} {input extDict : List UInt8} {inputPos offset : Nat}
  {output sink : SliceSink} {table table' : HashTable w N} {r : Except CompressError Nat}

/-- `bytes` are written to the sink. -/
structure Wrote (output : SliceSink) (bytes : List UInt8) (sink : SliceSink) : Prop where
  pos : sink.pos = output.pos + bytes.length
  pos_le : sink.pos ≤ sink.output.length
  taken : sink.output.take sink.pos = output.output.take output.pos ++ bytes
  length : sink.output.length = output.output.length

/-- The call wrote a block of the input from `inputPos` on. -/
structure Compressed (extDict input : List UInt8) (inputPos : Nat) (output : SliceSink)
    (r : Except CompressError Nat) (sink : SliceSink) (blk : Block) : Prop where
  inputPos_le : inputPos ≤ input.length
  result : r = .ok blk.bytes.length
  wrote : Wrote output blk.bytes sink
  expand : blk.expand (extDict ++ input.take inputPos) = some (extDict ++ input)
  conforms : Conforms (extDict.length + inputPos) (input.length - inputPos) blk

/-- What was written is a block, after the dictionary and the input before
it. -/
theorem Compressed.isBlockOf {blk : Block}
    (h : Compressed extDict input inputPos output r sink blk) :
    Spec.IsBlockOf (extDict ++ input.take inputPos) (input.drop inputPos) blk.bytes := by
  refine ⟨blk, Spec.parse_bytes h.conforms.1.encodable, ?_, ?_⟩
  · rw [h.expand, List.append_assoc, List.take_append_drop]
  · rw [List.length_append, List.length_take, Nat.min_eq_left h.inputPos_le, List.length_drop]
    exact h.conforms

/-- The capacity test and the block. -/
theorem writeBlock_ok {len max : Nat} {block : Rest → Run (Rest × HashTable w N)}
    {P : HashTable w N → Prop}
    (hpos : output.pos ≤ output.output.length) (hmax : getMaximumOutputSize t len = .ret max)
    (hout : output.output.length ≤ t.isizeMax) (hlen : len = input.length - inputPos)
    (hin : inputPos ≤ input.length)
    (hblock : ∀ o : Rest, len + len / 255 + 16 ≤ o.rest.length → (block o).WP fun (o', table') =>
      (∃ blk, Encodes extDict input inputPos o blk o') ∧ P table') :
    (writeBlock t output table len block).WP fun (r, sink, table') =>
      (r = .error .outputTooSmall ∧ output.output.length < output.pos + max ∧ sink = output ∧
        table' = table) ∨
      ((∃ blk, Compressed extDict input inputPos output r sink blk) ∧ P table') := by
  have hl : (output.output.drop output.pos).length = output.output.length - output.pos :=
    List.length_drop
  rw [writeBlock, hmax, Run.WP_bind, Run.WP_assert]
  refine ⟨hpos, .ite (fun hsmall => .inl ⟨rfl, by omega, rfl, rfl⟩) fun hroom => ?_⟩
  have hge := getMaximumOutputSize_le hmax (by omega)
  rw [Run.WP_bind]
  refine (hblock ⟨[], output.output.drop output.pos⟩ (by dsimp only; omega)).mono
    fun ⟨o', table'⟩ ⟨⟨blk, he⟩, ht⟩ => ?_
  have hrest := he.puts.rest
  have hwritten := he.puts.written
  dsimp only [List.nil_append] at hrest hwritten ⊢
  rw [Run.WP_bind, Run.WP_sub]
  have htake : (output.output.take output.pos).length = output.pos := by
    rw [List.length_take]
    omega
  have hn : (output.output.drop output.pos).length - o'.rest.length = blk.bytes.length := by omega
  have hlen' : (output.output.take output.pos ++ o'.written ++ o'.rest).length =
      output.output.length := by
    rw [List.length_append, List.length_append, htake, hwritten]
    omega
  refine ⟨by omega, .inr ⟨⟨blk, hin, by rw [hn], ⟨by rw [hn], ?_, ?_, hlen'⟩, he.expand, he.conforms⟩, ht⟩⟩
  · dsimp only
    omega
  · dsimp only
    rw [hn, hwritten]
    exact List.take_left' (by rw [List.length_append, htake])

/-- What the capacity test needs. -/
theorem writeBlock_inv {len : Nat} {block : Rest → Run (Rest × HashTable w N)}
    {Q : Except CompressError Nat × SliceSink × HashTable w N → Prop}
    (h : (writeBlock t output table len block).WP Q) :
    output.pos ≤ output.output.length ∧ ∃ max, getMaximumOutputSize t len = .ret max := by
  simp only [writeBlock, Run.WP_bind, Run.WP_assert] at h
  obtain ⟨max, hmax, -⟩ := Run.WP_iff.mp h.2
  exact ⟨h.1, max, hmax⟩

/-! ## `compress_internal` -/

/-- What the code asserts of the dictionary and the stream, and of the mode. -/
structure Permitted (t : Target) (m : Mode) (input extDict : List UInt8) (inputPos offset : Nat) :
    Prop where
  inputPos_le : inputPos ≤ input.length
  dict : m.useDict → extDict.length ≤ WINDOW_SIZE ∧ extDict.length ≤ offset ∧
    offset + input.length + extDict.length ≤ t.isizeMax
  noDict : m.useDict = false → extDict = []
  hasOffset : m.hasOffset ∨ offset = 0
  readonly : m.readonly → m.useDict ∧ offset = extDict.length
  small : m.readonly → extDict.length + input.length < U16_MAX
  near : m.near → extDict.length + input.length ≤ MAX_DISTANCE + 1

theorem streamBounds_eq (h : extDict.length ≤ offset)
    (hs : offset + input.length + extDict.length ≤ t.isizeMax) :
    streamBounds t offset input.length extDict.length = .ret (.ok ()) := by
  have := t.modulus_cases
  have hlt : offset + input.length + extDict.length < t.modulus := by
    unfold Target.isizeMax at hs
    omega
  unfold streamBounds
  dsimp only
  cases t.width with
  | w32 =>
    dsimp only
    rw [if_neg (by omega), if_pos ⟨hlt, Nat.not_lt_of_le hs⟩]
    rfl
  | w64 =>
    dsimp only
    rw [Run.assert, if_pos h, Run.ret_bind, Run.assert, if_pos ⟨hlt, hs⟩]
    rfl

/-- What the tests on the bounds let through. -/
theorem streamBounds_inv (P : Except CompressError Unit → Prop)
    (h : (streamBounds t offset input.length extDict.length).WP P) :
    (∃ e, P (.error e)) ∨ P (.ok ()) ∧ extDict.length ≤ offset ∧
      offset + input.length + extDict.length ≤ t.isizeMax := by
  unfold streamBounds at h
  dsimp only at h
  cases hw : t.width with
  | w32 =>
    rw [hw] at h
    dsimp only at h
    split at h
    · exact .inl ⟨_, h⟩
    · split at h
      · exact .inr ⟨h, by omega, by omega⟩
      · exact .inl ⟨_, h⟩
  | w64 =>
    rw [hw] at h
    simp only [Run.WP_bind, Run.WP_assert, Run.pure_eq, Run.WP_ret] at h
    exact .inr ⟨h.2.2, h.1, h.2.1.2⟩

theorem checkBounds_eq (h : Permitted t m input extDict inputPos offset) :
    checkBounds t m.useDict input extDict offset = .ret (.ok ()) := by
  unfold checkBounds
  cases hu : m.useDict with
  | true =>
    obtain ⟨h₁, h₂, h₃⟩ := h.dict hu
    rw [if_pos rfl, Run.assert, if_pos h₁, Run.ret_bind, streamBounds_eq h₂ h₃]
  | false =>
    rw [if_neg Bool.false_ne_true, Run.assert, if_pos (h.noDict hu)]
    rfl

theorem checkBounds_inv {useDict : Bool} (P : Except CompressError Unit → Prop)
    (h : (checkBounds t useDict input extDict offset).WP P) :
    (∃ e, P (.error e)) ∨ P (.ok ()) ∧
      (useDict → extDict.length ≤ WINDOW_SIZE ∧ extDict.length ≤ offset ∧
        offset + input.length + extDict.length ≤ t.isizeMax) ∧
      (useDict = false → extDict = []) := by
  unfold checkBounds at h
  cases useDict with
  | true =>
    simp only [if_true, Run.WP_bind, Run.WP_assert] at h
    obtain ⟨hwin, h⟩ := h
    refine (streamBounds_inv P h).imp_right fun h => ⟨h.1, fun _ => ⟨hwin, h.2⟩, ?_⟩
    exact fun h => absurd h.symm Bool.false_ne_true
  | false =>
    simp only [Bool.false_eq_true, if_false, Run.WP_bind, Run.WP_assert] at h
    exact .inr ⟨h.2, fun h => absurd h Bool.false_ne_true, fun _ => h.1⟩

/-- Within its assertions, `compress_internal` writes a block of the input,
unless the sink is too small. -/
theorem compressInternal_ok {max : Nat} (hN : ValidEntries t N) (hlen : input.length ≤ t.isizeMax)
    (hout : output.output.length ≤ t.isizeMax) (hpos : output.pos ≤ output.output.length)
    (hfits : offset + input.length ≤ t.modulus)
    (hmax : getMaximumOutputSize t (input.length - inputPos) = .ret max)
    (hp : Permitted t m input extDict inputPos offset)
    (ht : Bounded m.readonly table (Nat.max 1 (offset + inputPos))) :
    (compressInternal t m input inputPos output table extDict offset).WP fun (r, sink, table') =>
      (r = .error .outputTooSmall ∧ output.output.length < output.pos + max ∧ sink = output ∧
        table' = table) ∨
      ((∃ blk, Compressed extDict input inputPos output r sink blk) ∧
        Bounded m.readonly table' (Nat.max 1 (offset + input.length))) := by
  have hoff : (if m.hasOffset then offset else 0) = offset := by
    split
    · rfl
    · exact (hp.hasOffset.resolve_left ‹_›).symm
  have hdict : extDict.length ≤ offset := by
    cases hu : m.useDict with
    | true => exact (hp.dict hu).2.1
    | false =>
      rw [hp.noDict hu]
      exact Nat.zero_le _
  simp only [compressInternal, checkBounds_eq hp, Run.WP_bind, Run.WP_assert, Run.ret_bind, hoff]
  exact ⟨hp.inputPos_le, hp.hasOffset, hp.readonly, hp.small, hp.near,
    writeBlock_ok (P := (Bounded m.readonly · (Nat.max 1 (offset + input.length)))) hpos hmax hout rfl
      hp.inputPos_le fun o ho => compressBlock_ok hN hlen hfits hdict hp.near
      (fun hr => ⟨(hp.readonly hr).1, (hp.readonly hr).2, hp.small hr⟩) hp.inputPos_le ht ho⟩

/-- A call of `compress_internal` that returns has written a block of the
input, or has changed nothing. -/
theorem compressInternal_ret (hN : ValidEntries t N) (hlen : input.length ≤ t.isizeMax)
    (hout : output.output.length ≤ t.isizeMax)
    (hfits : m.useDict = false → offset + input.length ≤ t.modulus)
    (ht : Bounded m.readonly table (Nat.max 1 (offset + inputPos)))
    (h : compressInternal t m input inputPos output table extDict offset = .ret (r, sink, table')) :
    ((∃ e, r = .error e) ∧ sink = output ∧ table' = table) ∨
      ((∃ blk, Compressed extDict input inputPos output r sink blk) ∧
        Bounded m.readonly table' (Nat.max 1 (offset + input.length))) := by
  have hw := Run.WP_iff.mpr ⟨_, h, Eq.refl (r, sink, table')⟩
  simp only [compressInternal, Run.WP_bind, Run.WP_assert] at hw
  obtain ⟨hpos, hw⟩ := hw
  obtain ⟨e, he⟩ | ⟨hw, hdict, hno⟩ := checkBounds_inv _ hw
  · obtain ⟨rfl, rfl, rfl⟩ := he
    exact .inl ⟨⟨e, rfl⟩, rfl, rfl⟩
  · simp only [Run.WP_bind, Run.WP_assert] at hw
    obtain ⟨hoff, hro, hsmall, hnear, hw⟩ := hw
    have hp : Permitted t m input extDict inputPos offset :=
      ⟨hpos, hdict, hno, hoff, hro, hsmall, hnear⟩
    have hfits' : offset + input.length ≤ t.modulus := by
      cases hu : m.useDict with
      | true =>
        have := (hdict hu).2.2
        unfold Target.isizeMax at this
        omega
      | false => exact hfits hu
    obtain ⟨hout', max, hmax⟩ := writeBlock_inv hw
    have := (compressInternal_ok hN hlen hout hout' hfits' hmax hp ht).of_ret h
    exact this.imp_left fun h => ⟨⟨_, h.1⟩, h.2.2⟩

/-! ## `compress_with_dict_table` -/

/-- Within its assertions, `compress_with_dict_table` writes a block of the
input, unless the sink is too small. -/
theorem compressWithDictTable_ok {dictTable : HashTable w N} {mainBase max : Nat}
    (hN : ValidEntries t N) (hlen : input.length ≤ t.isizeMax)
    (hout : output.output.length ≤ t.isizeMax) (hpos : output.pos ≤ output.output.length)
    (hfits : mainBase + input.length ≤ U16_MAX)
    (hnear : extDict.length + input.length < U16_MAX)
    (hmax : getMaximumOutputSize t input.length = .ret max) (ht : Below table mainBase) :
    (compressWithDictTable t input output table dictTable extDict extDict.length mainBase).WP
      fun (r, sink, table') =>
        (r = .error .outputTooSmall ∧ output.output.length < output.pos + max ∧ sink = output ∧
          table' = table) ∨
        ((∃ blk, Compressed extDict input 0 output r sink blk) ∧
          Below table' (mainBase + input.length)) := by
  have hmod := t.modulus_cases
  simp only [U16_MAX] at hnear
  have hspan : extDict.length + input.length + extDict.length ≤ t.isizeMax := by
    unfold Target.isizeMax
    omega
  simp only [compressWithDictTable, Run.WP_bind, Run.WP_assert,
    streamBounds_eq (Nat.le_refl extDict.length) hspan, Run.ret_bind, WINDOW_SIZE]
  refine ⟨trivial, hfits, by omega, ?_⟩
  simp only [U16_MAX] at hfits
  exact writeBlock_ok (P := (Below · (mainBase + input.length))) hpos hmax hout rfl (Nat.zero_le _)
    fun o ho => compressBlockWithDictTable_ok hN hlen (by omega) hnear ht ho

/-- A call of `compress_with_dict_table` that returns has written a block of
the input, or has changed nothing. -/
theorem compressWithDictTable_ret {dictTable : HashTable w N} {mainBase : Nat}
    (hN : ValidEntries t N) (hlen : input.length ≤ t.isizeMax)
    (hout : output.output.length ≤ t.isizeMax)
    (hnear : extDict.length + input.length < U16_MAX) (ht : Below table mainBase)
    (h : compressWithDictTable t input output table dictTable extDict extDict.length mainBase =
      .ret (r, sink, table')) :
    ((∃ e, r = .error e) ∧ sink = output ∧ table' = table) ∨
      ((∃ blk, Compressed extDict input 0 output r sink blk) ∧
        Below table' (mainBase + input.length)) := by
  have hw := Run.WP_iff.mpr ⟨_, h, Eq.refl (r, sink, table')⟩
  simp only [compressWithDictTable, Run.WP_bind, Run.WP_assert] at hw
  obtain ⟨-, hfits, -, hw⟩ := hw
  obtain ⟨e, he⟩ | ⟨hw, -⟩ := streamBounds_inv _ hw
  · obtain ⟨rfl, rfl, rfl⟩ := he
    exact .inl ⟨⟨e, rfl⟩, rfl, rfl⟩
  · obtain ⟨hpos, max, hmax⟩ := writeBlock_inv hw
    have := (compressWithDictTable_ok hN hlen hout hpos hfits hnear hmax ht).of_ret h
    exact this.imp_left fun h => ⟨⟨_, h.1⟩, h.2.2⟩

/-! ## Dictionaries -/

/-- Storing every third position keeps a bound past the last one. -/
theorem seedLoop_ok {base b : Nat} (hN : ValidEntries t N) (hb : base + input.length ≤ b)
    (hfits : base + input.length ≤ t.modulus) (ht : Below table b) :
    (Run.loop (seedLoop t input base) (input.length + 1) (table, 0)).WP (Below · b) := by
  refine Run.WP.loop (fun s => Below s.1 b) (fun s => input.length - s.2) (fun s hs => ?_) _ _ ht
    (by dsimp only; omega)
  refine .ite (fun hi => ?_) fun _ => hs
  simp only [Run.WP_bind, Target.WP_add]
  refine (getHashAt_ok hN hi).mono fun hash hh => ⟨by omega, (putAt_ok hs hh (by omega)).mono
    fun table' ht' => ⟨ht', ?_⟩⟩
  dsimp only
  omega

theorem seedTableWithInput_ok {base b : Nat} (hN : ValidEntries t N)
    (hb : base + input.length ≤ b) (hfits : base + input.length ≤ t.modulus) (ht : Below table b) :
    (seedTableWithInput t table input base).WP (Below · b) :=
  seedLoop_ok hN hb hfits ht

/-- The dictionary is cut to its last bytes, and its positions are stored. -/
theorem initDict_ok (dict : List UInt8) (hN : ValidEntries t N) :
    (initDict t (HashTable.zero w N) dict).WP fun (T, d) =>
      Below T (Nat.max 1 d.length) ∧ d.length ≤ WINDOW_SIZE ∧ d <:+ dict ∧
        (dict.length ≤ WINDOW_SIZE → d = dict) := by
  have hmod := t.modulus_cases
  rw [initDict]
  generalize hd : (if dict.length > WINDOW_SIZE then dict.drop (dict.length - WINDOW_SIZE)
    else dict) = d
  have hcut : d.length ≤ WINDOW_SIZE ∧ d <:+ dict ∧ (dict.length ≤ WINDOW_SIZE → d = dict) := by
    rw [← hd]
    split
    · rw [List.length_drop]
      exact ⟨by omega, List.drop_suffix _ _, fun h => by omega⟩
    · exact ⟨by omega, List.suffix_refl _, fun _ => rfl⟩
  have hlen := hcut.1
  simp only [WINDOW_SIZE] at hlen
  rw [Run.WP_bind]
  refine (seedLoop_ok hN ?_ (by omega) (below_zero w N (b := Nat.max 1 d.length) ?_)).mono
    fun T hT => ⟨hT, hcut⟩
  · rw [Nat.zero_add]
    exact Nat.le_max_right _ _
  · exact Nat.lt_of_lt_of_le Nat.one_pos (Nat.le_max_left _ _)

end

/-! ## Round trips -/

section

variable {w N : Nat} {t : Target} {input extDict : List UInt8} {inputPos : Nat}
  {output sink : SliceSink} {r : Except CompressError Nat}

theorem Wrote.seg_eq {bytes : List UInt8} (h : Wrote output bytes sink)
    (hpos : output.pos ≤ output.output.length) :
    seg sink.output output.pos bytes.length = bytes := by
  have htake : (output.output.take output.pos).length = output.pos := by
    rw [List.length_take]
    omega
  have := congrArg (List.drop output.pos) h.taken
  rwa [h.pos, List.drop_take, Nat.add_sub_cancel_left, List.drop_left' htake] at this

/-- What was written decodes after the input before it, with the dictionary or
a longer one. -/
theorem Compressed.decompress {blk : Block} (h : Compressed extDict input inputPos output r sink blk)
    (useDict : Bool) {dict : List UInt8}
    (hdict : extDict <:+ Decode.history useDict dict) {s : SliceSink}
    (haddr : t.Addressable [blk.bytes, s.output]) (hs : s.pos = inputPos)
    (hheld : s.output.take inputPos = input.take inputPos) (hroom : input.length ≤ s.output.length) :
    (decompressIntoSinkWithDict t useDict blk.bytes s dict).WP fun (r', s') =>
      r' = .ok (input.length - inputPos) ∧ s'.pos = input.length ∧ s'.output.take s'.pos = input ∧
        s'.output.length = s.output.length := by
  obtain ⟨a, ha⟩ := hdict
  subst hs
  have hpos := h.inputPos_le
  refine Run.WP.mono (Decode.decompressIntoSinkWithDict_spec (Decode.Fits.of_addressable haddr)
    (by omega)) fun (r', s') hd => ?_
  have hdec := Spec.decode_prepend a h.isBlockOf.decode
  rw [← List.append_assoc, ha, ← hheld] at hdec
  obtain ⟨rfl, hp, htake⟩ := hd.ok _ hdec (by rw [List.length_drop]; dsimp only; omega)
  dsimp only at hp htake
  rw [List.length_drop] at hp
  rw [hheld, List.take_append_drop] at htake
  exact ⟨by rw [List.length_drop], by omega, htake, hd.capacity⟩

/-! ## A caller's table -/

/-- Every entry is before position `p` of the stream, and zero where that is
its start. -/
def Before (T : HashTable w N) (p : Nat) : Prop :=
  ∀ i, (h : i < N) → T.dict[i].toNat < p ∨ p = 0 ∧ T.dict[i].toNat = 0

theorem before_iff {T : HashTable w N} {p : Nat} : Before T p ↔ Below T (Nat.max 1 p) := by
  refine forall_congr' fun i => forall_congr' fun hi => ?_
  rcases Nat.eq_zero_or_pos p with rfl | hp
  · simp
  · rw [show Nat.max 1 p = p from Nat.max_eq_right hp]
    omega

theorem defaultNodict_valid (t : Target) : ValidEntries t DEFAULT_NODICT_ENTRIES := by
  refine ⟨by decide, ?_⟩
  rcases t.modulus_cases with h | h <;> rw [h] <;> decide

/-- Whatever the entries of a table that lie before the input, compressing
with it into a sink with room for the largest block succeeds. What is written
decodes to the input, after the input before it and with the dictionary, and
the entries then lie before the end of the input. -/
theorem compressIntoSinkWithTable_roundtrip (t : Target) (useDict : Bool)
    (input extDict : List UInt8) (inputPos offset max : Nat) (output : SliceSink)
    (table : HashTableU32 DEFAULT_NODICT_ENTRIES) (hpos : inputPos ≤ input.length)
    (hwin : extDict.length ≤ WINDOW_SIZE) (hno : useDict = false → extDict = [])
    (hoff : extDict.length ≤ offset) (h32 : offset + input.length < 2 ^ 32)
    (hguard : useDict = true → t.width = .w32 →
      offset + input.length + extDict.length ≤ t.isizeMax)
    (ht : Before table (offset + inputPos))
    (hmax : getMaximumOutputSize t (input.length - inputPos) = .ret max)
    (hroom : output.pos + max ≤ output.output.length)
    (haddr : t.Addressable [input, extDict, output.output]) :
    ∃ n output' table',
      compressIntoSinkWithTable t useDict true false input inputPos output table extDict offset =
        .ret (.ok n, output', table') ∧
      Before table' (offset + input.length) ∧
      ∀ s : SliceSink, t.Addressable [seg output'.output output.pos n, s.output] →
        s.pos = inputPos → s.output.take inputPos = input.take inputPos →
        input.length ≤ s.output.length →
        ∃ s', decompressIntoSinkWithDict t true (seg output'.output output.pos n) s extDict =
            .ret (.ok (input.length - inputPos), s') ∧
          s'.pos = input.length ∧ s'.output.take s'.pos = input := by
  obtain ⟨hisize, -⟩ := haddr
  simp only [List.mem_cons, List.not_mem_nil, or_false, forall_eq_or_imp, forall_eq] at hisize
  have hmod := t.modulus_cases
  simp only [WINDOW_SIZE] at hwin
  have hspan : useDict = true → offset + input.length + extDict.length ≤ t.isizeMax := fun hu => by
    cases hw : t.width with
    | w32 => exact hguard hu hw
    | w64 =>
      have : t.modulus = 2 ^ 64 := by rw [Target.modulus, hw]
      unfold Target.isizeMax
      omega
  have hp : Permitted t ⟨useDict, true, false, false⟩ input extDict inputPos offset :=
    ⟨hpos, fun hu => ⟨hwin, hoff, hspan hu⟩, hno, .inl rfl, fun h => absurd h Bool.false_ne_true,
      fun h => absurd h Bool.false_ne_true, fun h => absurd h Bool.false_ne_true⟩
  obtain ⟨⟨r, output', table'⟩, hrun, hres⟩ := Run.WP_iff.mp (compressInternal_ok
    (defaultNodict_valid t) hisize.1 hisize.2.2 (by omega) (by omega) hmax hp
    (fun _ => before_iff.mp ht))
  obtain ⟨-, hsmall, -⟩ | ⟨⟨blk, hc⟩, hb⟩ := hres
  · omega
  · have hseg := hc.wrote.seg_eq (by omega)
    obtain rfl := hc.result
    refine ⟨_, output', table', hrun, before_iff.mpr (hb rfl), fun s hs hsp hheld hsr => ?_⟩
    rw [hseg] at hs ⊢
    obtain ⟨⟨r', s'⟩, hrun', rfl, hend⟩ := Run.WP_iff.mp (hc.decompress true
      (List.suffix_refl _) hs hsp hheld hsr)
    exact ⟨s', hrun', hend.1, hend.2.1⟩

/-- A run of one byte behind four bytes and a dictionary, with a table that has nothing but
positions of older inputs. -/
theorem compressIntoSinkWithTable_roundtrip_stale :
    let t : Target := ⟨.w64, false, false⟩
    let table : HashTableU32 DEFAULT_NODICT_ENTRIES := ⟨Vector.replicate _ 50#32⟩
    ∃ n output' table',
      compressIntoSinkWithTable t true true false (List.replicate 24 7) 4 ⟨List.replicate 42 0, 0⟩
        table [1, 2, 3, 4, 5, 6, 7, 8] 100 = .ret (.ok n, output', table') ∧
      Before table' (100 + 24) ∧
      ∀ s : SliceSink, t.Addressable [seg output'.output 0 n, s.output] →
        s.pos = 4 → s.output.take 4 = [7, 7, 7, 7] → 24 ≤ s.output.length →
        ∃ s', decompressIntoSinkWithDict t true (seg output'.output 0 n) s [1, 2, 3, 4, 5, 6, 7, 8] =
            .ret (.ok 20, s') ∧ s'.pos = 24 ∧ s'.output.take s'.pos = List.replicate 24 7 :=
  have stale (i : Nat) (_ : i < DEFAULT_NODICT_ENTRIES) :
      ((Vector.replicate DEFAULT_NODICT_ENTRIES 50#32)[i]).toNat < 104 := by
    rw [Vector.getElem_replicate]
    decide
  compressIntoSinkWithTable_roundtrip ⟨.w64, false, false⟩ true (List.replicate 24 7)
    [1, 2, 3, 4, 5, 6, 7, 8] 4 100 42 _ ⟨Vector.replicate _ 50#32⟩ (by decide) (by decide) (by decide)
    (by decide) (by decide) (by decide) (fun i hi => .inl (stale i hi)) rfl (by decide) (by decide)

/-- On 32-bit targets the test on the stream's extent refuses offsets from half
the address space on, and no entry lies before the end of an empty stream. -/
theorem compressIntoSinkWithTable_limits :
    compressIntoSinkWithTable ⟨.w32, false, false⟩ true true false [] 0 ⟨List.replicate 20 0, 0⟩
        (HashTable.zero 32 DEFAULT_NODICT_ENTRIES) [] (2 ^ 31) =
      .ret (.error .inputTooLarge, ⟨List.replicate 20 0, 0⟩,
        HashTable.zero 32 DEFAULT_NODICT_ENTRIES) ∧
    ∃ output' table',
      compressIntoSinkWithTable ⟨.w64, false, false⟩ false true false [] 0
          ⟨List.replicate 20 0, 0⟩ (HashTable.zero 32 DEFAULT_NODICT_ENTRIES) [] 0 =
        .ret (.ok 1, output', table') ∧
      ¬ ∀ i, (h : i < DEFAULT_NODICT_ENTRIES) → table'.dict[i].toNat < 0 + 0 :=
  ⟨rfl, _, _, rfl, fun h => absurd (h 0 (by decide)) (Nat.not_lt_zero _)⟩

end

end Lz4rip.Proof.Encode
