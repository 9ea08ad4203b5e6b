import Lz4rip.Proof.Encode.Compressor

/-!
# Round trips

What any call on any compressor leaves, after any calls before it, is a block
of its input (`CompressorRefN.compressInto_ret` and its kin). So it decodes to
the input, with the dictionary that the compressor was given rather than the
one it kept (`compressor_roundtrip`, `compressWithDict_roundtrip`), and obeys
the rules of the format, on every route (`Emits`, `emits_isBlock`).
-/

namespace Lz4rip.Proof.Encode

open Lz4rip.Impl
open Spec (IsBlockOf)

/-! ## Calls after calls -/

section

variable {N : Nat} {t : Target} {dict input output bytes : List UInt8}

/-- `decompress_into_with_dict` decodes `bytes` to exactly `input`, in any
buffer that has room for it. -/
def DecodesWithDict (t : Target) (dict bytes input : List UInt8) : Prop :=
  ∀ buf : List UInt8, t.Addressable [bytes, buf] → input.length ≤ buf.length →
    ∃ buf', decompressIntoWithDict t bytes buf dict = .ret (.ok input.length, buf') ∧
      buf'.take input.length = input

/-- `decompress_into` decodes `bytes` to exactly `input`, in any buffer that has
room for it. -/
def Decodes (t : Target) (bytes input : List UInt8) : Prop :=
  ∀ buf : List UInt8, t.Addressable [bytes, buf] → input.length ≤ buf.length →
    ∃ buf', decompressInto t bytes buf = .ret (.ok input.length, buf') ∧
      buf'.take input.length = input

theorem decompressInternal_of_isBlockOf (useDict : Bool) (dict : List UInt8)
    (h : IsBlockOf (Decode.history useDict dict) input bytes) {buf : List UInt8}
    (haddr : t.Addressable [bytes, buf]) (hroom : input.length ≤ buf.length) :
    ∃ s, decompressInternal t useDict bytes ⟨buf, 0⟩ dict = .ret (.ok input.length, s) ∧
      s.output.take input.length = input := by
  obtain ⟨⟨r, s⟩, hrun, hd⟩ := Run.WP_iff.mp (Decode.decompressInternal_spec useDict dict ⟨buf, 0⟩
    (Decode.Fits.of_addressable haddr) (Nat.zero_le _))
  have hdec := h.decode
  have hok := hd.ok
  simp only [List.take_zero, List.append_nil, List.nil_append, Nat.zero_add] at hok
  obtain ⟨rfl, hp, htake⟩ := hok _ hdec hroom
  exact ⟨s, hrun, by rwa [hp] at htake⟩

theorem decodesWithDict_of_isBlockOf (h : IsBlockOf dict input bytes) :
    DecodesWithDict t dict bytes input := fun buf haddr hroom => by
  obtain ⟨s, hrun, htake⟩ := decompressInternal_of_isBlockOf true dict h haddr hroom
  exact ⟨s.output, by simp only [decompressIntoWithDict, hrun, Run.ret_bind, Run.pure_eq], htake⟩

theorem decodes_of_isBlockOf (h : IsBlockOf [] input bytes) : Decodes t bytes input :=
  fun buf haddr hroom => by
    obtain ⟨s, hrun, htake⟩ := decompressInternal_of_isBlockOf false [] h haddr hroom
    exact ⟨s.output, by simp only [decompressInto, hrun, Run.ret_bind, Run.pure_eq], htake⟩

/-- What a call on a compressor leaves after any calls before it. -/
theorem CompressorRefN.compressInto_ret {c c' : CompressorRefN N} {n : Nat} {out : List UInt8}
    (hN : ValidEntries t N) (haddr : t.Addressable [input, output])
    (hc : Relation.ReflTransGen (PlainCall t) ⟨HashTable.zero 32 N, 0⟩ c)
    (h : c.compressInto t input output = .ret (.ok n, out, c')) :
    IsBlockOf [] input (out.take n) := by
  simp only [CompressorRefN.compressInto, Run.bind_eq_ret, Prod.exists] at h
  obtain ⟨r, out', T, next, hrun, hret⟩ := h
  obtain ⟨rfl, rfl, rfl⟩ := Run.ret.inj hret
  exact (compressPlainTable_ret hN haddr (plainCall_below hN hc) hrun).2 n rfl

theorem CompressorN.compressInto_ret {c c' : CompressorN N} {n : Nat} {out : List UInt8}
    (hN : ValidEntries t N) (haddr : t.Addressable [input, output])
    (hc : Relation.ReflTransGen (OwningCall t) ⟨⟨HashTable.zero 32 N, 0⟩⟩ c)
    (h : c.compressInto t input output = .ret (.ok n, out, c')) :
    IsBlockOf [] input (out.take n) := by
  simp only [CompressorN.compressInto, Run.bind_eq_ret, Prod.exists] at h
  obtain ⟨r, out', inner, hrun, hret⟩ := h
  obtain ⟨rfl, rfl, rfl⟩ := Run.ret.inj hret
  exact CompressorRefN.compressInto_ret hN haddr 
    (hc.lift CompressorN.inner fun _ _ => OwningCall.inner) hrun

theorem compressInto_ret {n : Nat} {out : List UInt8} (haddr : t.Addressable [input, output])
    (h : compressInto t input output = .ret (.ok n, out)) : IsBlockOf [] input (out.take n) := by
  simp only [compressInto, SliceSink.new_zero, Run.ret_bind, Run.bind_eq_ret, Prod.exists] at h
  obtain ⟨r, sink, hrun, hret⟩ := h
  obtain ⟨rfl, rfl⟩ := Run.ret.inj hret
  exact compressIntoSinkWithDict_ret haddr (fun _ => rfl) hrun n rfl

theorem compressIntoWithDict_ret {n : Nat} {out : List UInt8}
    (haddr : t.Addressable [input, output])
    (h : compressIntoWithDict t input output dict = .ret (.ok n, out)) :
    IsBlockOf dict input (out.take n) := by
  simp only [compressIntoWithDict, SliceSink.new_zero, Run.ret_bind, Run.bind_eq_ret, Prod.exists]
    at h
  obtain ⟨r, sink, hrun, hret⟩ := h
  obtain ⟨rfl, rfl⟩ := Run.ret.inj hret
  exact compressIntoSinkWithDict_ret haddr (fun h => absurd h.symm Bool.false_ne_true) hrun n rfl

theorem compressIntoWithDict_returns {max : Nat} (haddr : t.Addressable [input, output])
    (hmax : getMaximumOutputSize t input.length = .ret max) (hroom : max ≤ output.length) :
    ∃ n out, compressIntoWithDict t input output dict = .ret (.ok n, out) := by
  obtain ⟨n, sink, hrun⟩ := compressIntoSinkWithDict_returns true dict haddr
    (fun h => absurd h.symm Bool.false_ne_true) hmax hroom
  exact ⟨n, _, by simp only [compressIntoWithDict, SliceSink.new_zero, Run.ret_bind, hrun]; rfl⟩

/-- What `compress` returns, with a vector that was allocated. -/
theorem compress_ret {v : List UInt8}
    (haddr : ∀ max, getMaximumOutputSize t input.length = .ret max →
      t.Addressable [input, List.replicate max 0])
    (h : compress t input = .ret v) : IsBlockOf [] input v := by
  simp only [compress, SliceSink.new_zero, Run.ret_bind, Run.bind_eq_ret, Prod.exists] at h
  obtain ⟨max, hmax, _, -, r, sink, hrun, n, hn, hret⟩ := h
  obtain rfl := Run.ret.inj hret
  refine compressIntoSinkWithDict_ret (haddr max hmax) (fun _ => rfl) hrun n ?_
  cases r with
  | ok m =>
    obtain rfl := Run.ret.inj hn
    rfl
  | error e => cases hn

/-- What a call on a dictionary compressor leaves after any calls before it. -/
theorem DictCompressorRefN.compressInto_ret {c c' : DictCompressorRefN N} {n : Nat}
    {out : List UInt8} {pristine : HashTableU32U16 N} (hN : ValidEntries t N)
    (haddr : t.Addressable [input, output])
    (hc : Relation.ReflTransGen (DictCall t) ⟨HashTable.zero 16 N, pristine, 1, trimDict dict⟩ c)
    (h : c.compressInto t input output = .ret (.ok n, out, c')) :
    IsBlockOf dict input (out.take n) := by
  obtain ⟨ht, hd⟩ := dictCall_below hN hc
  simp only [DictCompressorRefN.compressInto, Run.bind_eq_ret, Prod.exists] at h
  obtain ⟨r, out', T, T', base, hrun, hret⟩ := h
  obtain ⟨rfl, rfl, rfl⟩ := Run.ret.inj hret
  rw [hd] at hrun
  exact ((compressDictTables_ret hN haddr (length_trimDict dict) ht hrun).2 n rfl).of_suffix
    (trimDict_suffix dict)

/-- With room for the largest block, a call on a dictionary compressor
succeeds, whatever the calls before it. -/
theorem DictCompressorRefN.compressInto_returns {c : DictCompressorRefN N} {max : Nat}
    {pristine : HashTableU32U16 N} (hN : ValidEntries t N) (haddr : t.Addressable [input, output])
    (hmax : getMaximumOutputSize t input.length = .ret max) (hroom : max ≤ output.length)
    (hc : Relation.ReflTransGen (DictCall t) ⟨HashTable.zero 16 N, pristine, 1, trimDict dict⟩ c) :
    ∃ n out c', c.compressInto t input output = .ret (.ok n, out, c') := by
  obtain ⟨ht, hd⟩ := dictCall_below hN hc
  obtain ⟨n, out, T, T', base, hrun⟩ := compressDictTables_returns c.pristine hN haddr
    (length_trimDict dict) ht hmax hroom
  exact ⟨n, out, _, by simp only [DictCompressorRefN.compressInto, hd, hrun, Run.ret_bind]; rfl⟩

end

section

variable {N : Nat} {t : Target} {dict input output out : List UInt8} {n : Nat}

theorem DictCompressorN.compressInto_ret {c c' : DictCompressorN N} {pristine : HashTableU32U16 N}
    (hN : ValidEntries t N) (haddr : t.Addressable [input, output])
    (hc : Relation.ReflTransGen (OwningDictCall t)
      ⟨trimDict dict, HashTable.zero 16 N, pristine, 1⟩ c)
    (h : c.compressInto t input output = .ret (.ok n, out, c')) :
    IsBlockOf dict input (out.take n) :=
  DictCompressorRefN.compressInto_ret hN haddr (hc.lift borrow fun _ _ => OwningDictCall.borrow)
    (borrow_compressInto h)

theorem DictCompressorN.compressInto_returns {c : DictCompressorN N} {max : Nat}
    {pristine : HashTableU32U16 N} (hN : ValidEntries t N) (haddr : t.Addressable [input, output])
    (hmax : getMaximumOutputSize t input.length = .ret max) (hroom : max ≤ output.length)
    (hc : Relation.ReflTransGen (OwningDictCall t)
      ⟨trimDict dict, HashTable.zero 16 N, pristine, 1⟩ c) :
    ∃ n out c', c.compressInto t input output = .ret (.ok n, out, c') := by
  obtain ⟨n, out, c', h⟩ := DictCompressorRefN.compressInto_returns hN haddr hmax hroom
    (hc.lift borrow fun _ _ => OwningDictCall.borrow)
  simp only [DictCompressorRefN.compressInto, Run.bind_eq_ret, Prod.exists] at h
  obtain ⟨r, out', T, T', base, hrun, hret⟩ := h
  obtain ⟨rfl, rfl, rfl⟩ := Run.ret.inj hret
  have hrun : compressDictTables t c.table c.pristine c.mainBase c.dict input output = _ := hrun
  exact ⟨n, _, _, by simp only [DictCompressorN.compressInto, hrun, Run.ret_bind]; rfl⟩

end

/-! ## Round trips -/

section

variable {N : Nat} {t : Target} {dict input output : List UInt8}

/-- A call that succeeds on a compressor without a dictionary, after any calls
before it, leaves a block that decodes to its input; so do the calls without a
compressor. -/
theorem compressor_roundtrip (hN : ValidEntries t N) (haddr : t.Addressable [input, output]) :
    (∃ c₀, CompressorRefN.new N = .ret c₀ ∧
      ∀ c, Relation.ReflTransGen (PlainCall t) c₀ c → ∀ n out c',
        c.compressInto t input output = .ret (.ok n, out, c') → Decodes t (out.take n) input) ∧
    (∃ c₀, CompressorN.new N = .ret c₀ ∧
      ∀ c, Relation.ReflTransGen (OwningCall t) c₀ c → ∀ n out c',
        c.compressInto t input output = .ret (.ok n, out, c') → Decodes t (out.take n) input) ∧
    (∀ n out, compressInto t input output = .ret (.ok n, out) → Decodes t (out.take n) input) ∧
    ((∀ max, getMaximumOutputSize t input.length = .ret max →
        t.Addressable [input, List.replicate max 0]) →
      ∀ v, compress t input = .ret v → Decodes t v input) :=
  ⟨⟨_, CompressorRefN.new_ok hN, fun _ hc _ _ _ h =>
      decodes_of_isBlockOf (CompressorRefN.compressInto_ret hN haddr hc h)⟩,
    ⟨_, CompressorN.new_ok hN, fun _ hc _ _ _ h =>
      decodes_of_isBlockOf (CompressorN.compressInto_ret hN haddr hc h)⟩,
    fun _ _ h => decodes_of_isBlockOf (compressInto_ret haddr h),
    fun hv _ h => decodes_of_isBlockOf (compress_ret hv h)⟩

/-- A run of one byte has a match, also on the smallest table after any calls. -/
theorem compressor_roundtrip_match :
    let t : Target := ⟨.w64, false, false⟩
    (∃ c₀, CompressorRefN.new 256 = .ret c₀ ∧
      ∀ c, Relation.ReflTransGen (PlainCall t) c₀ c → ∀ n out c',
        c.compressInto t (List.replicate 20 7) (List.replicate 42 0) = .ret (.ok n, out, c') →
          Decodes t (out.take n) (List.replicate 20 7)) ∧
      Decodes t [0x19, 7, 1, 0, 0x60, 7, 7, 7, 7, 7, 7] (List.replicate 20 7) := by
  intro t
  have hrun : compressInto t (List.replicate 20 7) (List.replicate 42 0) =
      .ret (.ok 11, [0x19, 7, 1, 0, 0x60, 7, 7, 7, 7, 7, 7] ++ (List.replicate 6 7 ++ List.replicate 25 0)) := by
    decide +kernel
  have haddr : t.Addressable [List.replicate 20 7, List.replicate 42 0] := by decide
  obtain ⟨hnew, -, hinto, -⟩ := compressor_roundtrip (N := 256) ⟨by decide, by decide⟩ haddr
  exact ⟨hnew, hinto _ _ hrun⟩

/-- With room for the largest block, compressing with a dictionary succeeds, on
a compressor after any calls before it or without one, and the block decodes
to the input with the dictionary as it was given. -/
theorem compressWithDict_roundtrip {max : Nat} (hN : ValidEntries t N)
    (haddr : t.Addressable [input, output])
    (hmax : getMaximumOutputSize t input.length = .ret max) (hroom : max ≤ output.length) :
    (∃ n out, compressIntoWithDict t input output dict = .ret (.ok n, out) ∧
      DecodesWithDict t dict (out.take n) input) ∧
    (∃ c₀, DictCompressorRefN.new t N dict = .ret c₀ ∧
      ∀ c, Relation.ReflTransGen (DictCall t) c₀ c → ∃ n out c',
        c.compressInto t input output = .ret (.ok n, out, c') ∧
          DecodesWithDict t dict (out.take n) input) ∧
    (∃ c₀, DictCompressorN.new t N dict = .ret c₀ ∧
      ∀ c, Relation.ReflTransGen (OwningDictCall t) c₀ c → ∃ n out c',
        c.compressInto t input output = .ret (.ok n, out, c') ∧
          DecodesWithDict t dict (out.take n) input) := by
  refine ⟨?_, ?_, ?_⟩
  · obtain ⟨n, out, h⟩ := compressIntoWithDict_returns haddr hmax hroom
    exact ⟨n, out, h, decodesWithDict_of_isBlockOf (compressIntoWithDict_ret haddr h)⟩
  · obtain ⟨pristine, hnew⟩ := DictCompressorRefN.new_ok hN dict
    refine ⟨_, hnew, fun c hc => ?_⟩
    obtain ⟨n, out, c', h⟩ := DictCompressorRefN.compressInto_returns hN haddr hmax hroom hc
    exact ⟨n, out, c', h, decodesWithDict_of_isBlockOf
      (DictCompressorRefN.compressInto_ret hN haddr hc h)⟩
  · obtain ⟨pristine, hnew⟩ := DictCompressorN.new_ok hN dict
    refine ⟨_, hnew, fun c hc => ?_⟩
    obtain ⟨n, out, c', h⟩ := DictCompressorN.compressInto_returns hN haddr hmax hroom hc
    exact ⟨n, out, c', h, decodesWithDict_of_isBlockOf
      (DictCompressorN.compressInto_ret hN haddr hc h)⟩

/-- Bytes that are in the dictionary, on a compressor after any calls. -/
theorem compressWithDict_roundtrip_match :
    let t : Target := ⟨.w32, false, false⟩
    let dict : List UInt8 := [1, 2, 3, 4, 5, 6, 7, 8, 9, 10, 11, 12]
    let input : List UInt8 := [1, 2, 3, 4, 5, 6, 7, 8, 9, 10, 11, 12, 13, 14, 15, 16]
    (∃ n out, compressIntoWithDict t input (List.replicate 37 0) dict = .ret (.ok n, out) ∧
      DecodesWithDict t dict (out.take n) input) ∧
    ∃ c₀, DictCompressorRefN.new t 256 dict = .ret c₀ ∧
      ∀ c, Relation.ReflTransGen (DictCall t) c₀ c → ∃ n out c',
        c.compressInto t input (List.replicate 37 0) = .ret (.ok n, out, c') ∧
          DecodesWithDict t dict (out.take n) input := by
  intro t dict input
  have hmax : getMaximumOutputSize t input.length = .ret 37 := by decide
  have hroom : 37 ≤ (List.replicate 37 (0 : UInt8)).length := Nat.le_of_eq List.length_replicate.symm
  obtain ⟨hinto, hnew, -⟩ := @compressWithDict_roundtrip 256 t dict input (List.replicate 37 0) 37
    ⟨by decide, by decide⟩ (by decide) hmax hroom
  exact ⟨hinto, hnew⟩

/-! ## The format -/

/-- A call with a caller's table whose entries are before the input leaves a
block of the input, after what is before it. -/
theorem compressIntoSinkWithTable_ret {useDict hasOffset readonly : Bool}
    {input extDict : List UInt8} {inputPos offset : Nat} {output output' : SliceSink}
    {T T' : HashTableU32 DEFAULT_NODICT_ENTRIES} {n : Nat}
    (haddr : t.Addressable [input, output.output]) (h32 : offset + input.length < 2 ^ 32)
    (hT : Before T (offset + inputPos))
    (h : compressIntoSinkWithTable t useDict hasOffset readonly input inputPos output T extDict
      offset = .ret (.ok n, output', T')) :
    IsBlockOf (extDict ++ input.take inputPos) (input.drop inputPos)
      (seg output'.output output.pos n) := by
  obtain ⟨hisize, -⟩ := haddr
  simp only [List.mem_cons, List.not_mem_nil, or_false, forall_eq_or_imp, forall_eq] at hisize
  have hmod := t.modulus_cases
  obtain ⟨⟨e, he⟩, -⟩ | ⟨⟨blk, hc⟩, -⟩ := compressInternal_ret (defaultNodict_valid t) hisize.1
    hisize.2 (fun _ => by omega) (fun _ => before_iff.mp hT) h
  · cases he
  · have hpos : output.pos ≤ output.output.length := by
      have h₁ := hc.wrote.pos
      have h₂ := hc.wrote.pos_le
      have h₃ := hc.wrote.length
      omega
    obtain rfl := Except.ok.inj hc.result
    rw [hc.wrote.seg_eq hpos]
    exact hc.isBlockOf

/-- `bytes` were emitted by one of the routes of the encoder as a block of
`input`, after `hist`. -/
inductive Emits (t : Target) : (hist input bytes : List UInt8) → Prop
  /-- `compress_into`. -/
  | into {input output out : List UInt8} {n : Nat} : t.Addressable [input, output] →
      compressInto t input output = .ret (.ok n, out) → Emits t [] input (out.take n)
  /-- `compress_into_with_dict`. -/
  | withDict {dict input output out : List UInt8} {n : Nat} : t.Addressable [input, output] →
      compressIntoWithDict t input output dict = .ret (.ok n, out) →
      Emits t dict input (out.take n)
  /-- `compress`. -/
  | vec {input v : List UInt8} :
      (∀ max, getMaximumOutputSize t input.length = .ret max →
        t.Addressable [input, List.replicate max 0]) →
      compress t input = .ret v → Emits t [] input v
  /-- A compressor, after any calls. -/
  | plain {N : Nat} {c₀ c c' : CompressorRefN N} {input output out : List UInt8} {n : Nat} :
      ValidEntries t N → t.Addressable [input, output] → CompressorRefN.new N = .ret c₀ →
      Relation.ReflTransGen (PlainCall t) c₀ c →
      c.compressInto t input output = .ret (.ok n, out, c') → Emits t [] input (out.take n)
  /-- An owning compressor, after any calls. -/
  | owning {N : Nat} {c₀ c c' : CompressorN N} {input output out : List UInt8} {n : Nat} :
      ValidEntries t N → t.Addressable [input, output] → CompressorN.new N = .ret c₀ →
      Relation.ReflTransGen (OwningCall t) c₀ c →
      c.compressInto t input output = .ret (.ok n, out, c') → Emits t [] input (out.take n)
  /-- A dictionary compressor, after any calls. -/
  | dict {N : Nat} {c₀ c c' : DictCompressorRefN N} {dict input output out : List UInt8} {n : Nat} :
      ValidEntries t N → t.Addressable [input, output] →
      DictCompressorRefN.new t N dict = .ret c₀ → Relation.ReflTransGen (DictCall t) c₀ c →
      c.compressInto t input output = .ret (.ok n, out, c') → Emits t dict input (out.take n)
  /-- An owning dictionary compressor, after any calls. -/
  | owningDict {N : Nat} {c₀ c c' : DictCompressorN N} {dict input output out : List UInt8} {n : Nat} :
      ValidEntries t N → t.Addressable [input, output] →
      DictCompressorN.new t N dict = .ret c₀ → Relation.ReflTransGen (OwningDictCall t) c₀ c →
      c.compressInto t input output = .ret (.ok n, out, c') → Emits t dict input (out.take n)
  /-- A caller's table, as the frame encoder uses one. -/
  | table {useDict hasOffset readonly : Bool} {input extDict : List UInt8} {inputPos offset : Nat}
      {output output' : SliceSink} {T T' : HashTableU32 DEFAULT_NODICT_ENTRIES} {n : Nat} :
      t.Addressable [input, output.output] → offset + input.length < 2 ^ 32 →
      Before T (offset + inputPos) →
      compressIntoSinkWithTable t useDict hasOffset readonly input inputPos output T extDict offset =
        .ret (.ok n, output', T') →
      Emits t (extDict ++ input.take inputPos) (input.drop inputPos)
        (seg output'.output output.pos n)

/-- Every block of every route decodes to its input and obeys the rules of the
format. -/
theorem emits_isBlock {hist bytes : List UInt8} (h : Emits t hist input bytes) :
    ∃ b, Spec.parse bytes = some b ∧ b.expand hist = some (hist ++ input) ∧
      Spec.Conforms hist.length input.length b := by
  show IsBlockOf hist input bytes
  cases h with
  | into haddr h => exact compressInto_ret haddr h
  | withDict haddr h => exact compressIntoWithDict_ret haddr h
  | vec haddr h => exact compress_ret haddr h
  | plain hN haddr hnew hc h =>
    obtain rfl := Run.ret.inj ((CompressorRefN.new_ok hN).symm.trans hnew)
    exact CompressorRefN.compressInto_ret hN haddr hc h
  | owning hN haddr hnew hc h =>
    obtain rfl := Run.ret.inj ((CompressorN.new_ok hN).symm.trans hnew)
    exact CompressorN.compressInto_ret hN haddr hc h
  | dict hN haddr hnew hc h =>
    obtain ⟨pristine, hnew'⟩ := DictCompressorRefN.new_ok hN hist
    obtain rfl := Run.ret.inj (hnew'.symm.trans hnew)
    exact DictCompressorRefN.compressInto_ret hN haddr hc h
  | owningDict hN haddr hnew hc h =>
    obtain ⟨pristine, hnew'⟩ := DictCompressorN.new_ok hN hist
    obtain rfl := Run.ret.inj (hnew'.symm.trans hnew)
    exact DictCompressorN.compressInto_ret hN haddr hc h
  | table haddr h32 hT h => exact compressIntoSinkWithTable_ret haddr h32 hT h

/-- The block of a run of one byte. -/
theorem emits_isBlock_match :
    ∃ b, Spec.parse [0x19, 7, 1, 0, 0x60, 7, 7, 7, 7, 7, 7] = some b ∧
      b.expand [] = some (List.replicate 20 7) ∧ Spec.Conforms 0 20 b := by
  have hrun : compressInto ⟨.w64, false, false⟩ (List.replicate 20 7) (List.replicate 42 0) =
      .ret (.ok 11, [0x19, 7, 1, 0, 0x60, 7, 7, 7, 7, 7, 7] ++ (List.replicate 6 7 ++ List.replicate 25 0)) := by
    decide +kernel
  exact emits_isBlock (.into (by decide) hrun)

end

end Lz4rip.Proof.Encode
