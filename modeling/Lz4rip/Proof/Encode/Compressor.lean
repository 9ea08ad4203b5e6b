import Mathlib.Logic.Relation
import Lz4rip.Impl.Encode.Compressor
import Lz4rip.Proof.Encode.Compress

/-!
# Entry points and compressors

A call that returns keeps a compressor's table below its stream offset or, with
a dictionary, below its base, and leaves a block of its input if it succeeds
(`compressPlainTable_ret`, `compressDictTables_ret`); with room for the largest
block it does succeed (`compressDictTables_returns`). So do the calls without a
compressor (`compressIntoSinkWithDict_ret`, `compressIntoSinkWithDict_returns`).
Over any sequence of calls, failing ones included, the tables keep their bounds
(`plainCall_below`, `dictCall_below`).
-/

namespace Lz4rip.Proof.Encode

open Lz4rip.Impl
open Spec (Block IsBlockOf)

section

variable {w N : Nat} {t : Target} {input extDict output : List UInt8} {sink : SliceSink}
  {r : Except CompressError Nat}

/-- What a call that succeeded leaves below the position. -/
theorem Compressed.isBlockOf_take {n : Nat} {blk : Block}
    (h : Compressed extDict input 0 ⟨output, 0⟩ (.ok n) sink blk) :
    IsBlockOf extDict input (sink.output.take n) := by
  have hb := h.isBlockOf
  have htake := h.wrote.taken
  rw [List.take_zero, List.append_nil, List.drop_zero] at hb
  rw [h.wrote.pos, List.take_zero, List.nil_append, Nat.zero_add] at htake
  obtain rfl := Except.ok.inj h.result
  rwa [htake]

/-- What a call that may have written a block leaves below the position. -/
theorem isBlockOf_of_outcome {A B : Prop}
    (h : ((∃ e, r = .error e) ∧ A) ∨
      ((∃ blk, Compressed extDict input 0 ⟨output, 0⟩ r sink blk) ∧ B)) {n : Nat} (hr : r = .ok n) :
    IsBlockOf extDict input (sink.output.take n) := by
  subst hr
  obtain ⟨⟨e, he⟩, -⟩ | ⟨⟨blk, hc⟩, -⟩ := h
  · cases he
  · exact hc.isBlockOf_take

theorem SliceSink.new_zero (output : List UInt8) : SliceSink.new output 0 = .ret ⟨output, 0⟩ := rfl

theorem HashTable.new_ok (w : Nat) (hN : ValidEntries t N) :
    HashTable.new w N = .ret (HashTable.zero w N) := by
  rw [HashTable.new, Run.assert, if_pos hN.valid]
  rfl

/-- A stream that starts with the dictionary fits the address space, together
with a buffer that has room for the largest block. -/
theorem span_le {max : Nat} (haddr : input.length + output.length + 4096 ≤ t.addressSpace)
    (hout : output.length ≤ t.isizeMax)
    (hmax : getMaximumOutputSize t input.length = .ret max) (hroom : max ≤ output.length)
    (hwin : extDict.length ≤ WINDOW_SIZE) :
    extDict.length + input.length + extDict.length ≤ t.isizeMax := by
  have hge := getMaximumOutputSize_le hmax (Nat.le_trans hroom hout)
  have hle := t.addressSpace_le
  have hmod := t.modulus_cases
  simp only [WINDOW_SIZE] at hwin
  unfold Target.isizeMax
  omega

/-- With room for the largest block, `compress_internal` succeeds. -/
theorem compressInternal_returns {m : Mode} {offset max : Nat} {table : HashTable w N}
    (hN : ValidEntries t N) (hlen : input.length ≤ t.isizeMax) (hout : output.length ≤ t.isizeMax)
    (hfits : offset + input.length ≤ t.modulus)
    (hmax : getMaximumOutputSize t input.length = .ret max) (hroom : max ≤ output.length)
    (hp : Permitted t m input extDict 0 offset)
    (ht : Bounded m.readonly table (Nat.max 1 offset)) :
    ∃ n sink table',
      compressInternal t m input 0 ⟨output, 0⟩ table extDict offset = .ret (.ok n, sink, table') := by
  have hw : (compressInternal t m input 0 ⟨output, 0⟩ table extDict offset).WP
      fun x => ∃ n, x.1 = .ok n := by
    refine Run.WP.mono (compressInternal_ok hN hlen hout (Nat.zero_le _) hfits hmax hp ht)
      fun x hres => ?_
    obtain ⟨r, sink, table'⟩ := x
    obtain ⟨-, hsmall, -⟩ | ⟨⟨blk, hc⟩, -⟩ := hres
    · dsimp only at hsmall
      omega
    · exact ⟨_, hc.result⟩
  obtain ⟨⟨r, sink, table'⟩, hrun, n, rfl⟩ := Run.WP_iff.mp hw
  exact ⟨n, sink, table', hrun⟩

/-- With room for the largest block, `compress_with_dict_table` succeeds. -/
theorem compressWithDictTable_returns {mainBase max : Nat} {table : HashTable w N}
    (dictTable : HashTable w N) (hN : ValidEntries t N) (hlen : input.length ≤ t.isizeMax) (hout : output.length ≤ t.isizeMax)
    (hfits : mainBase + input.length ≤ U16_MAX) (hnear : extDict.length + input.length < U16_MAX)
    (hmax : getMaximumOutputSize t input.length = .ret max) (hroom : max ≤ output.length)
    (ht : Below table mainBase) :
    ∃ n sink table',
      compressWithDictTable t input ⟨output, 0⟩ table dictTable extDict extDict.length mainBase =
        .ret (.ok n, sink, table') := by
  have hw : (compressWithDictTable t input ⟨output, 0⟩ table dictTable extDict extDict.length
      mainBase).WP fun x => ∃ n, x.1 = .ok n := by
    refine Run.WP.mono (compressWithDictTable_ok hN hlen hout (Nat.zero_le _) hfits hnear hmax ht)
      fun x hres => ?_
    obtain ⟨r, sink, table'⟩ := x
    obtain ⟨-, hsmall, -⟩ | ⟨⟨blk, hc⟩, -⟩ := hres
    · dsimp only at hsmall
      omega
    · exact ⟨_, hc.result⟩
  obtain ⟨⟨r, sink, table'⟩, hrun, n, rfl⟩ := Run.WP_iff.mp hw
  exact ⟨n, sink, table', hrun⟩

end

/-! ## Without a dictionary -/

section

variable {N : Nat} {t : Target} {input output out : List UInt8} {r : Except CompressError Nat}
  {table table' : HashTableU32 N} {streamOffset streamOffset' : Nat}

/-- `prepare_plain_table` leaves the table below the offset of this call, and
the next offset past its end. -/
theorem preparePlainTable_ok {offset : Nat} (ht : Below table (Nat.max 1 streamOffset))
    (h : preparePlainTable t table streamOffset input.length = .ret (table', streamOffset', offset)) :
    Below table' (Nat.max 1 offset) ∧ offset + input.length < streamOffset' ∧
      (0 < offset → input.length ≤ EPOCH_THRESHOLD ∧ streamOffset' < t.modulus) := by
  have hzero : Below (HashTable.zero 32 N) (Nat.max 1 0) := below_zero 32 N (by decide)
  unfold preparePlainTable at h
  split at h
  · have hw := Run.WP_iff.mpr ⟨_, h, Eq.refl (table', streamOffset', offset)⟩
    simp only [Run.WP_bind, Target.WP_add, Run.pure_eq, Run.WP_ret, Prod.mk.injEq] at hw
    obtain ⟨-, -, rfl, rfl, rfl⟩ := hw
    exact ⟨hzero, by simp only [MAX_DISTANCE]; omega, fun h => absurd h (Nat.lt_irrefl 0)⟩
  · dsimp only at h
    split at h
    · rename_i hsmall hnext
      obtain ⟨rfl, rfl, rfl⟩ := Run.ret.inj h
      exact ⟨ht, by simp only [MAX_DISTANCE]; omega, fun _ => ⟨by omega, hnext.1⟩⟩
    · obtain ⟨rfl, rfl, rfl⟩ := Run.ret.inj h
      exact ⟨hzero, by simp only [MAX_DISTANCE]; omega, fun h => absurd h (Nat.lt_irrefl 0)⟩

/-- A call that returns keeps the table below the stream offset, and leaves a
block of its input if it succeeds. -/
theorem compressPlainTable_ret (hN : ValidEntries t N) (haddr : t.Addressable [input, output])
    (ht : Below table (Nat.max 1 streamOffset))
    (h : compressPlainTable t table streamOffset input output =
      .ret (r, out, table', streamOffset')) :
    Below table' (Nat.max 1 streamOffset') ∧
      ∀ n, r = .ok n → IsBlockOf [] input (out.take n) := by
  obtain ⟨hisize, -⟩ := haddr
  simp only [List.mem_cons, List.not_mem_nil, or_false, forall_eq_or_imp, forall_eq] at hisize
  simp only [compressPlainTable, SliceSink.new_zero, Run.bind_eq_ret, Run.ret_bind, Prod.exists]
    at h
  obtain ⟨T, next, offset, hprep, r', sink, T', hrun, hret⟩ := h
  obtain ⟨rfl, rfl, rfl, rfl⟩ := Run.ret.inj hret
  obtain ⟨hT, hnext, hfits⟩ := preparePlainTable_ok ht hprep
  generalize hm : (if offset > 0 then (⟨false, true, false, true⟩ : Mode)
    else if input.length ≤ MAX_DISTANCE + 1 then ⟨false, false, false, true⟩
    else ⟨false, false, false, false⟩) = m at hrun
  have hmode : m.readonly = false := by
    rw [← hm]
    split
    · rfl
    · split <;> rfl
  have hmod := t.modulus_cases
  have hlen := hisize.1
  unfold Target.isizeMax at hlen
  have hout := compressInternal_ret hN hisize.1 hisize.2 (fun _ => by
    rcases Nat.eq_zero_or_pos offset with h₀ | h₀
    · omega
    · have := (hfits h₀).2
      omega) (fun _ => hT) hrun
  refine ⟨?_, fun n hn => isBlockOf_of_outcome hout hn⟩
  obtain ⟨-, -, rfl⟩ | ⟨-, hb⟩ := hout
  · exact hT.mono (one_max_mono (by omega))
  · exact (hb hmode).mono (one_max_mono (by omega))

end

/-! ## With a dictionary -/

section

variable {N : Nat} {t : Target} {dict input output out : List UInt8} {r : Except CompressError Nat}
  {table table' pristine pristine' : HashTableU32U16 N} {mainBase mainBase' : Nat}

/-- The main table is below its base after the test for a reset. -/
theorem resetDict_below (input : List UInt8) (ht : Below table mainBase) :
    Below (if input.length > DICT_EPOCH_THRESHOLD ∨ mainBase + input.length > U16_MAX then table.clear
        else table)
      (if input.length > DICT_EPOCH_THRESHOLD ∨ mainBase + input.length > U16_MAX then 1
        else mainBase) := by
  by_cases hreset : input.length > DICT_EPOCH_THRESHOLD ∨ mainBase + input.length > U16_MAX
  · rw [if_pos hreset, if_pos hreset]
    exact below_zero 16 N Nat.one_pos
  · rwa [if_neg hreset, if_neg hreset]

/-- A call that returns keeps the main table below its base, and leaves a block
of its input if it succeeds. The dictionary's table may hold anything. -/
theorem compressDictTables_ret (hN : ValidEntries t N) (haddr : t.Addressable [input, output])
    (hwin : dict.length ≤ WINDOW_SIZE) (ht : Below table mainBase)
    (h : compressDictTables t table pristine mainBase dict input output =
      .ret (r, out, table', pristine', mainBase')) :
    Below table' mainBase' ∧ ∀ n, r = .ok n → IsBlockOf dict input (out.take n) := by
  obtain ⟨hisize, -⟩ := haddr
  simp only [List.mem_cons, List.not_mem_nil, or_false, forall_eq_or_imp, forall_eq] at hisize
  unfold compressDictTables at h
  split at h
  · simp only [SliceSink.new_zero, Run.bind_eq_ret, Run.ret_bind, Prod.exists] at h
    obtain ⟨r', sink, T', hrun, hret⟩ := h
    obtain ⟨rfl, rfl, rfl, rfl, rfl⟩ := Run.ret.inj hret
    have hout := compressInternal_ret hN hisize.1 hisize.2 (fun h => absurd h.symm Bool.false_ne_true)
      (fun h => absurd h.symm Bool.false_ne_true) hrun
    exact ⟨ht, fun n hn => isBlockOf_of_outcome hout hn⟩
  · split at h
    · simp only [SliceSink.new_zero, Run.bind_eq_ret, Run.ret_bind, Prod.exists] at h
      obtain ⟨r', sink, T', hrun, hret⟩ := h
      obtain ⟨rfl, rfl, rfl, rfl, rfl⟩ := Run.ret.inj hret
      have hT := resetDict_below input ht
      have hout := compressWithDictTable_ret hN hisize.1 hisize.2 ‹_› hT hrun
      refine ⟨?_, fun n hn => isBlockOf_of_outcome hout hn⟩
      obtain ⟨-, -, rfl⟩ | ⟨-, hb⟩ := hout
      · exact hT.mono (Nat.le_add_right _ _)
      · exact hb
    · simp only [SliceSink.new_zero, Run.bind_eq_ret, Run.ret_bind, Prod.exists,
        HashTable.new_ok 32 hN] at h
      obtain ⟨T, d, hinit, r', sink, T', hrun, hret⟩ := h
      obtain ⟨rfl, rfl, rfl, rfl, rfl⟩ := Run.ret.inj hret
      obtain ⟨hT, -, -, hd⟩ := (initDict_ok dict hN).of_ret hinit
      obtain rfl := hd hwin
      have hout := compressInternal_ret hN hisize.1 hisize.2
        (fun h => absurd h.symm Bool.false_ne_true) (fun _ => hT) hrun
      exact ⟨ht, fun n hn => isBlockOf_of_outcome hout hn⟩

/-- With room for the largest block, a call succeeds. -/
theorem compressDictTables_returns {max : Nat} (pristine : HashTableU32U16 N) (hN : ValidEntries t N)
    (haddr : t.Addressable [input, output]) (hwin : dict.length ≤ WINDOW_SIZE)
    (ht : Below table mainBase) (hmax : getMaximumOutputSize t input.length = .ret max)
    (hroom : max ≤ output.length) :
    ∃ n out table' pristine' mainBase',
      compressDictTables t table pristine mainBase dict input output =
        .ret (.ok n, out, table', pristine', mainBase') := by
  obtain ⟨hisize, hsum⟩ := haddr
  simp only [List.mem_cons, List.not_mem_nil, or_false, forall_eq_or_imp, forall_eq] at hisize
  simp only [List.map_cons, List.map_nil, List.sum_cons, List.sum_nil] at hsum
  have hspan := span_le (by omega) hisize.2 hmax hroom hwin
  have hmod := t.modulus_cases
  have hfits : dict.length + input.length ≤ t.modulus := by
    unfold Target.isizeMax at hspan
    omega
  have hno : ∀ h : (true : Bool) = false, dict = [] := fun h => absurd h.symm Bool.false_ne_true
  have hfalse : ∀ {P : Prop}, (false : Bool) = true → P := fun h => absurd h Bool.false_ne_true
  unfold compressDictTables
  split
  · rename_i h
    have hp : Permitted t ⟨true, true, true, true⟩ input dict 0 dict.length :=
      ⟨Nat.zero_le _, fun _ => ⟨hwin, Nat.le_refl _, hspan⟩, hno, .inl rfl, fun _ => ⟨rfl, rfl⟩,
        fun _ => h.2, fun _ => by have := h.2; simp only [U16_MAX, MAX_DISTANCE] at this ⊢; omega⟩
    have ht' : Bounded true pristine (Nat.max 1 dict.length) := fun h =>
      absurd h.symm Bool.false_ne_true
    obtain ⟨n, sink, T', hrun⟩ := compressInternal_returns hN hisize.1 hisize.2 hfits hmax hroom hp ht'
    exact ⟨n, _, _, _, _, by simp only [SliceSink.new_zero, Run.ret_bind, hrun]; rfl⟩
  · split
    · rename_i h
      have hbase : (if input.length > DICT_EPOCH_THRESHOLD ∨ mainBase + input.length > U16_MAX then 1
          else mainBase) + input.length ≤ U16_MAX := by
        simp only [U16_MAX] at h ⊢
        split <;> omega
      obtain ⟨n, sink, T', hrun⟩ := compressWithDictTable_returns pristine hN hisize.1 hisize.2 hbase
        h hmax hroom (resetDict_below input ht)
      exact ⟨n, _, _, _, _, by simp only [SliceSink.new_zero, Run.ret_bind, hrun]; rfl⟩
    · obtain ⟨⟨T, d⟩, hinit, hT, -, -, hd⟩ := Run.WP_iff.mp (initDict_ok (w := 32) dict hN)
      obtain rfl := hd hwin
      have hp : Permitted t ⟨true, true, false, false⟩ input d 0 d.length :=
        ⟨Nat.zero_le _, fun _ => ⟨hwin, Nat.le_refl _, hspan⟩, hno, .inl rfl, hfalse, hfalse, hfalse⟩
      have hT' : Bounded false T (Nat.max 1 d.length) := fun _ => hT
      obtain ⟨n, sink, T', hrun⟩ := compressInternal_returns hN hisize.1 hisize.2 hfits hmax hroom hp
        hT'
      exact ⟨n, _, _, _, _, by
        simp only [SliceSink.new_zero, Run.ret_bind, HashTable.new_ok 32 hN, hinit, hrun]; rfl⟩

end

/-! ## One call -/

section

variable {t : Target} {useDict : Bool} {dict input output : List UInt8} {sink : SliceSink}
  {r : Except CompressError Nat}

theorem defaultDict_valid (t : Target) : ValidEntries t DEFAULT_DICT_ENTRIES := by
  refine ⟨by decide, ?_⟩
  rcases t.modulus_cases with h | h <;> rw [h] <;> decide

/-- A one-shot call that succeeds has written a block of its input, after the end
of the dictionary. -/
theorem compressIntoSinkByLength_compressed {n : Nat} (haddr : t.Addressable [input, output])
    (hno : useDict = false → dict = [])
    (h : compressIntoSinkByLength t useDict input ⟨output, 0⟩ dict = .ret (.ok n, sink)) :
    ∃ d blk, d <:+ dict ∧ Compressed d input 0 ⟨output, 0⟩ (.ok n) sink blk := by
  obtain ⟨hisize, -⟩ := haddr
  simp only [List.mem_cons, List.not_mem_nil, or_false, forall_eq_or_imp, forall_eq] at hisize
  have hmod := t.modulus_cases
  have hlen := hisize.1
  unfold Target.isizeMax at hlen
  have hfits : ∀ {d : List UInt8}, d <:+ dict → useDict = false →
      d.length + input.length ≤ t.modulus := fun hd hu => by
    have := hd.length_le
    rw [hno hu, List.length_nil] at this
    omega
  unfold compressIntoSinkByLength at h
  split at h
  · simp only [Run.bind_eq_ret, Run.ret_bind, Prod.exists,
      HashTable.new_ok 16 (defaultDict_valid t)] at h
    obtain ⟨T, d, hinit, r', sink', T', hrun, hret⟩ := h
    obtain ⟨rfl, rfl⟩ := Run.ret.inj hret
    obtain ⟨hT, -, hd, -⟩ := (initDict_ok dict (defaultDict_valid t)).of_ret hinit
    obtain ⟨⟨e, he⟩, -⟩ | ⟨⟨blk, hc⟩, -⟩ := compressInternal_ret (defaultDict_valid t) hisize.1
      hisize.2 (hfits hd) (fun _ => hT) hrun
    · cases he
    · exact ⟨d, blk, hd, hc⟩
  · simp only [Run.bind_eq_ret, Run.ret_bind, Prod.exists,
      HashTable.new_ok 32 (defaultNodict_valid t)] at h
    obtain ⟨T, d, hinit, r', sink', T', hrun, hret⟩ := h
    obtain ⟨rfl, rfl⟩ := Run.ret.inj hret
    obtain ⟨hT, -, hd, -⟩ := (initDict_ok dict (defaultNodict_valid t)).of_ret hinit
    obtain ⟨⟨e, he⟩, -⟩ | ⟨⟨blk, hc⟩, -⟩ := compressInternal_ret (defaultNodict_valid t) hisize.1
      hisize.2 (hfits hd) (fun _ => hT) hrun
    · cases he
    · exact ⟨d, blk, hd, hc⟩

/-- With room for the largest block, a one-shot call succeeds. -/
theorem compressIntoSinkByLength_returns {max : Nat} (haddr : t.Addressable [input, output])
    (hno : useDict = false → dict = []) (hmax : getMaximumOutputSize t input.length = .ret max)
    (hroom : max ≤ output.length) :
    ∃ n sink, compressIntoSinkByLength t useDict input ⟨output, 0⟩ dict = .ret (.ok n, sink) := by
  obtain ⟨hisize, hsum⟩ := haddr
  simp only [List.mem_cons, List.not_mem_nil, or_false, forall_eq_or_imp, forall_eq] at hisize
  simp only [List.map_cons, List.map_nil, List.sum_cons, List.sum_nil] at hsum
  have hmod := t.modulus_cases
  have hfalse : ∀ {P : Prop}, (false : Bool) = true → P := fun h => absurd h Bool.false_ne_true
  have hp : ∀ {d : List UInt8} (near : Bool), d.length ≤ WINDOW_SIZE → d <:+ dict →
      (near → d.length + input.length ≤ MAX_DISTANCE + 1) →
      Permitted t ⟨useDict, useDict, false, near⟩ input d 0 d.length ∧
        d.length + input.length ≤ t.modulus := fun near hwin hd hnear => by
    have hspan := span_le (by omega) hisize.2 hmax hroom hwin
    have hnil : useDict = false → _ = [] := fun hu => List.suffix_nil.mp (hno hu ▸ hd)
    refine ⟨⟨Nat.zero_le _, fun _ => ⟨hwin, Nat.le_refl _, hspan⟩, hnil, ?_, hfalse, hfalse, hnear⟩,
      ?_⟩
    · cases hu : useDict with
      | true => exact .inl rfl
      | false => exact .inr (by rw [hnil hu]; rfl)
    · unfold Target.isizeMax at hspan
      omega
  unfold compressIntoSinkByLength
  split
  · rename_i hsmall
    obtain ⟨⟨T, d⟩, hinit, hT, hwin, hd, -⟩ := Run.WP_iff.mp (initDict_ok (w := 16) dict
      (defaultDict_valid t))
    obtain ⟨hp, hfits⟩ := hp true hwin hd fun _ => by
      have := hd.length_le
      simp only [U16_MAX, MAX_DISTANCE] at hsmall ⊢
      omega
    have hT' : Bounded false T (Nat.max 1 d.length) := fun _ => hT
    obtain ⟨n, sink, T', hrun⟩ := compressInternal_returns (defaultDict_valid t) hisize.1 hisize.2
      hfits hmax hroom hp hT'
    exact ⟨n, sink, by
      simp only [HashTable.new_ok 16 (defaultDict_valid t), Run.ret_bind, hinit, hrun, Run.pure_eq]⟩
  · obtain ⟨⟨T, d⟩, hinit, hT, hwin, hd, -⟩ := Run.WP_iff.mp (initDict_ok (w := 32) dict
      (defaultNodict_valid t))
    obtain ⟨hp, hfits⟩ := hp false hwin hd hfalse
    have hT' : Bounded false T (Nat.max 1 d.length) := fun _ => hT
    obtain ⟨n, sink, T', hrun⟩ := compressInternal_returns (defaultNodict_valid t) hisize.1 hisize.2
      hfits hmax hroom hp hT'
    exact ⟨n, sink, by
      simp only [HashTable.new_ok 32 (defaultNodict_valid t), Run.ret_bind, hinit, hrun,
        Run.pure_eq]⟩

/-- A dictionary too short for a match is as good as none. -/
theorem compressIntoSinkWithDict_compressed {n : Nat} (haddr : t.Addressable [input, output])
    (hno : useDict = false → dict = [])
    (h : compressIntoSinkWithDict t useDict input ⟨output, 0⟩ dict = .ret (.ok n, sink)) :
    ∃ d blk, d <:+ dict ∧ Compressed d input 0 ⟨output, 0⟩ (.ok n) sink blk := by
  unfold compressIntoSinkWithDict at h
  split at h
  · obtain ⟨d, blk, hd, hc⟩ := compressIntoSinkByLength_compressed haddr (fun _ => rfl) h
    exact ⟨d, blk, hd.trans List.nil_suffix, hc⟩
  · exact compressIntoSinkByLength_compressed haddr hno h

theorem compressIntoSinkWithDict_ret (haddr : t.Addressable [input, output])
    (hno : useDict = false → dict = [])
    (h : compressIntoSinkWithDict t useDict input ⟨output, 0⟩ dict = .ret (r, sink)) :
    ∀ n, r = .ok n → IsBlockOf dict input (sink.output.take n) := fun n hn => by
  subst hn
  obtain ⟨d, blk, hd, hc⟩ := compressIntoSinkWithDict_compressed haddr hno h
  exact hc.isBlockOf_take.of_suffix hd

theorem compressIntoSinkWithDict_returns {max : Nat} (useDict : Bool) (dict : List UInt8)
    (haddr : t.Addressable [input, output])
    (hno : useDict = false → dict = []) (hmax : getMaximumOutputSize t input.length = .ret max)
    (hroom : max ≤ output.length) :
    ∃ n sink, compressIntoSinkWithDict t useDict input ⟨output, 0⟩ dict = .ret (.ok n, sink) := by
  unfold compressIntoSinkWithDict
  split
  · exact compressIntoSinkByLength_returns haddr (fun _ => rfl) hmax hroom
  · exact compressIntoSinkByLength_returns haddr hno hmax hroom

end

/-! ## Sequences of calls -/

section

variable {N : Nat} {t : Target} {dict : List UInt8}

/-- One call on a compressor, whatever its result. -/
def PlainCall (t : Target) (c c' : CompressorRefN N) : Prop :=
  ∃ input output r out, t.Addressable [input, output] ∧
    c.compressInto t input output = .ret (r, out, c')

/-- One call on an owning compressor. -/
def OwningCall (t : Target) (c c' : CompressorN N) : Prop :=
  ∃ input output r out, t.Addressable [input, output] ∧
    c.compressInto t input output = .ret (r, out, c')

/-- One call on a dictionary compressor. -/
def DictCall (t : Target) (c c' : DictCompressorRefN N) : Prop :=
  ∃ input output r out, t.Addressable [input, output] ∧
    c.compressInto t input output = .ret (r, out, c')

/-- One call on an owning dictionary compressor. -/
def OwningDictCall (t : Target) (c c' : DictCompressorN N) : Prop :=
  ∃ input output r out, t.Addressable [input, output] ∧
    c.compressInto t input output = .ret (r, out, c')

theorem CompressorRefN.new_ok (hN : ValidEntries t N) :
    CompressorRefN.new N = .ret ⟨HashTable.zero 32 N, 0⟩ := by
  rw [CompressorRefN.new, HashTable.new_ok 32 hN]
  rfl

theorem CompressorN.new_ok (hN : ValidEntries t N) :
    CompressorN.new N = .ret ⟨⟨HashTable.zero 32 N, 0⟩⟩ := by
  rw [CompressorN.new, CompressorRefN.new_ok hN]
  rfl

/-- The table of a compressor stays below its stream offset. -/
theorem plainCall_below (hN : ValidEntries t N) {c : CompressorRefN N}
    (h : Relation.ReflTransGen (PlainCall t) ⟨HashTable.zero 32 N, 0⟩ c) :
    Below c.table (Nat.max 1 c.streamOffset) := by
  induction h with
  | refl => exact below_zero 32 N Nat.one_pos
  | tail _ hc ih =>
    obtain ⟨input, output, r, out, haddr, hrun⟩ := hc
    simp only [CompressorRefN.compressInto, Run.bind_eq_ret, Prod.exists] at hrun
    obtain ⟨r', out', T, next, hrun, hret⟩ := hrun
    obtain ⟨rfl, rfl, rfl⟩ := Run.ret.inj hret
    exact (compressPlainTable_ret hN haddr ih hrun).1

theorem OwningCall.inner {c c' : CompressorN N} (h : OwningCall t c c') :
    PlainCall t c.inner c'.inner := by
  obtain ⟨input, output, r, out, haddr, hrun⟩ := h
  simp only [CompressorN.compressInto, Run.bind_eq_ret, Prod.exists] at hrun
  obtain ⟨r', out', inner, hrun, hret⟩ := hrun
  obtain ⟨rfl, rfl, rfl⟩ := Run.ret.inj hret
  exact ⟨input, output, _, _, haddr, hrun⟩

theorem length_trimDict (dict : List UInt8) : (trimDict dict).length ≤ WINDOW_SIZE := by
  unfold trimDict
  split
  · exact Nat.zero_le _
  · split
    · rw [List.length_drop]
      omega
    · omega

theorem trimDict_suffix (dict : List UInt8) : trimDict dict <:+ dict := by
  unfold trimDict
  split
  · exact List.nil_suffix
  · split
    · exact List.drop_suffix _ _
    · exact List.suffix_refl _

/-- A new dictionary compressor keeps a suffix of the dictionary that fits the
window. -/
theorem DictCompressorRefN.new_ok (hN : ValidEntries t N) (dict : List UInt8) :
    ∃ pristine, DictCompressorRefN.new t N dict =
      .ret ⟨HashTable.zero 16 N, pristine, 1, trimDict dict⟩ := by
  obtain ⟨⟨T, d⟩, hinit, -⟩ := Run.WP_iff.mp (initDict_ok (w := 16) (trimDict dict) hN)
  exact ⟨T, by
    simp only [DictCompressorRefN.new, HashTable.new_ok 16 hN, Run.ret_bind, hinit, Run.pure_eq]⟩

theorem DictCompressorN.new_ok (hN : ValidEntries t N) (dict : List UInt8) :
    ∃ pristine, DictCompressorN.new t N dict =
      .ret ⟨trimDict dict, HashTable.zero 16 N, pristine, 1⟩ := by
  obtain ⟨⟨T, d⟩, hinit, -⟩ := Run.WP_iff.mp (initDict_ok (w := 16) (trimDict dict) hN)
  exact ⟨T, by
    simp only [DictCompressorN.new, HashTable.new_ok 16 hN, Run.ret_bind, hinit, Run.pure_eq]⟩

/-- The main table of a dictionary compressor stays below its base, and the
dictionary stays what it is. -/
theorem dictCall_below (hN : ValidEntries t N) {pristine : HashTableU32U16 N}
    {c : DictCompressorRefN N}
    (h : Relation.ReflTransGen (DictCall t) ⟨HashTable.zero 16 N, pristine, 1, trimDict dict⟩ c) :
    Below c.table c.mainBase ∧ c.dict = trimDict dict := by
  induction h with
  | refl => exact ⟨below_zero 16 N Nat.one_pos, rfl⟩
  | tail _ hc ih =>
    obtain ⟨input, output, r, out, haddr, hrun⟩ := hc
    simp only [DictCompressorRefN.compressInto, Run.bind_eq_ret, Prod.exists] at hrun
    obtain ⟨r', out', T, T', base, hrun, hret⟩ := hrun
    obtain ⟨rfl, rfl, rfl⟩ := Run.ret.inj hret
    exact ⟨(compressDictTables_ret hN haddr (ih.2 ▸ length_trimDict dict) ih.1 hrun).1, ih.2⟩

/-- The borrowing compressor that holds what an owning one does. -/
def borrow (c : DictCompressorN N) : DictCompressorRefN N := ⟨c.table, c.pristine, c.mainBase, c.dict⟩

theorem borrow_compressInto {c c' : DictCompressorN N} {input output out : List UInt8}
    {r : Except CompressError Nat} (h : c.compressInto t input output = .ret (r, out, c')) :
    (borrow c).compressInto t input output = .ret (r, out, borrow c') := by
  simp only [DictCompressorN.compressInto, Run.bind_eq_ret, Prod.exists] at h
  obtain ⟨r', out', T, T', base, hrun, hret⟩ := h
  obtain ⟨rfl, rfl, rfl⟩ := Run.ret.inj hret
  simp only [DictCompressorRefN.compressInto, Run.bind_eq_ret, Prod.exists]
  exact ⟨_, _, _, _, _, hrun, rfl⟩

theorem OwningDictCall.borrow {c c' : DictCompressorN N} (h : OwningDictCall t c c') :
    DictCall t (borrow c) (borrow c') := by
  obtain ⟨input, output, r, out, haddr, hrun⟩ := h
  exact ⟨input, output, r, out, haddr, borrow_compressInto hrun⟩

end

end Lz4rip.Proof.Encode
