import Lz4rip.Impl.Wasm
import Lz4rip.Proof.Decode.Buffer
import Lz4rip.Proof.Encode.Capacity

/-!
# Messages through the bindings

A `Compressor` of the bindings compresses any messages one after the other, and never fails
(`compress_returns`); what it gives for each of them a `Decompressor` takes back for the size
of the message, and for no other (`session_restores`).
-/

namespace Lz4rip.Proof.Encode

open Lz4rip.Impl
open Spec (IsBlockOf)
open Impl.Wasm (exactly)

variable {t : Target} {dict message bytes : List UInt8}

/-- There is room for a message and for the vector that its block is written to. -/
def Sendable (t : Target) (message : List UInt8) : Prop :=
  ∃ max, getMaximumOutputSize t message.length = .ret max ∧
    t.Addressable [message, List.replicate max 0]

/-! ## Compressing -/

/-- A compressor with a dictionary, or with none, after any calls. -/
inductive Reached (t : Target) (dict : List UInt8) : Wasm.Compressor → Prop where
  | plain {c : CompressorN DEFAULT_NODICT_ENTRIES} (hdict : dict = [])
      (h : Relation.ReflTransGen (OwningCall t) ⟨⟨HashTable.zero 32 _, 0⟩⟩ c) : Reached t dict ⟨.plain c⟩
  | dict {c : DictCompressorN DEFAULT_DICT_ENTRIES} {pristine : HashTableU32U16 DEFAULT_DICT_ENTRIES}
      (h : Relation.ReflTransGen (OwningDictCall t) ⟨trimDict dict, HashTable.zero 16 _, pristine, 1⟩ c) :
      Reached t dict ⟨.dict c⟩

/-- The vector that is compressed into has room for the block. -/
theorem compressToVec_ok {γ : Type} {into : List UInt8 → Run (Except CompressError Nat × List UInt8 × γ)}
    {n max : Nat} {out : List UInt8} {c : γ} (hmax : getMaximumOutputSize t message.length = .ret max)
    (hle : max ≤ t.isizeMax) (h : into (List.replicate max 0) = .ret (.ok n, out, c)) :
    compressToVec t message into = .ret (out.take n, c) := by
  rw [compressToVec, hmax, Run.ret_bind, Run.assert, if_pos hle, Run.ret_bind, h]
  rfl

theorem Sendable.isize {max : Nat} (h : t.Addressable [message, List.replicate max 0]) :
    message.length ≤ t.isizeMax ∧ max ≤ t.isizeMax := by
  have hmem := h.1
  simp only [List.mem_cons, List.not_mem_nil, or_false, forall_eq_or_imp, forall_eq,
    List.length_replicate] at hmem
  exact hmem

/-- A block has its message's room, where the vector for it had. -/
theorem Sendable.restorable {n max : Nat} (hmax : getMaximumOutputSize t message.length = .ret max)
    (h : t.Addressable [message, List.replicate max 0])
    (hn : n ≤ message.length + message.length / 255 + 16) (out : List UInt8) :
    t.Addressable [out.take n, List.replicate message.length 0] := by
  have hisize := Sendable.isize h
  have hge := getMaximumOutputSize_ge hisize.1 hmax
  have hsum := h.2
  have htake := List.length_take_le n out
  simp only [Target.Addressable, List.mem_cons, List.not_mem_nil, or_false, forall_eq_or_imp, forall_eq,
    List.length_replicate, List.map_cons, List.map_nil, List.sum_cons, List.sum_nil] at hsum ⊢
  omega

/-- A message is compressed, whatever was compressed before it. -/
theorem compress_returns {c : Wasm.Compressor} (hc : Reached t dict c) (hm : Sendable t message) :
    ∃ bytes c', c.compress t message = .ret (bytes, c') ∧ Reached t dict c' ∧
      IsBlockOf dict message bytes ∧ t.Addressable [bytes, List.replicate message.length 0] := by
  obtain ⟨max, hmax, haddr⟩ := hm
  obtain ⟨hlen, hle⟩ := Sendable.isize haddr
  have hroom : max ≤ (List.replicate max (0 : UInt8)).length := Nat.le_of_eq List.length_replicate.symm
  have hout : (List.replicate max (0 : UInt8)).length ≤ t.isizeMax := List.length_replicate.trans_le hle
  cases hc with
  | @plain c hdict h =>
    have hbelow := plainCall_below (defaultNodict_valid t) (h.lift CompressorN.inner fun _ _ => OwningCall.inner)
    obtain ⟨⟨r, out, T, offset⟩, hrun, ho⟩ := Run.WP_iff.mp
      (compressPlainTable_outcome (defaultNodict_valid t) hlen hout hbelow hmax)
    obtain ⟨n, rfl, hn⟩ := ho.ok hroom id
    have hcall : c.compressInto t message (List.replicate max 0) = .ret (.ok n, out, ⟨⟨T, offset⟩⟩) := by
      simp only [CompressorN.compressInto, CompressorRefN.compressInto, hrun, Run.ret_bind, Run.pure_eq]
    have hinner : c.inner.compressInto t message (List.replicate max 0) = .ret (.ok n, out, ⟨T, offset⟩) := by
      simp only [CompressorRefN.compressInto, hrun, Run.ret_bind, Run.pure_eq]
    refine ⟨out.take n, ⟨.plain ⟨⟨T, offset⟩⟩⟩, ?_, .plain hdict (h.tail ⟨_, _, _, _, haddr, hcall⟩), ?_,
      Sendable.restorable hmax haddr hn out⟩
    · simp only [Wasm.Compressor.compress, CompressorN.compress, CompressorRefN.compress,
        compressToVec_ok hmax hle hinner, Run.ret_bind, Run.pure_eq]
    · rw [hdict]
      exact CompressorN.compressInto_ret (defaultNodict_valid t) haddr h hcall
  | @dict c pristine h =>
    obtain ⟨hbelow, hdict⟩ := dictCall_below (defaultDict_valid t) (h.lift borrow fun _ _ => OwningDictCall.borrow)
    have hbelow : Below c.table c.mainBase := hbelow
    have hdict : c.dict = trimDict dict := hdict
    have hok : (compressDictTables t c.table c.pristine c.mainBase (trimDict dict) message
        (List.replicate max 0)).WP fun p => Outcome message.length max
          (List.replicate max (0 : UInt8)).length
          (Refused t true (trimDict dict).length message.length (trimDict dict).length)
          (List.replicate max 0) p.1 p.2.1 :=
      compressDictTables_outcome (defaultDict_valid t) hlen hout (length_trimDict dict) hbelow hmax
    obtain ⟨⟨r, out, T, P, base⟩, hrun, ho⟩ := Run.WP_iff.mp hok
    obtain ⟨n, rfl, hn⟩ := ho.ok hroom (not_refused haddr (length_trimDict dict) hmax hroom)
    have hcall : c.compressInto t message (List.replicate max 0) =
        .ret (.ok n, out, ⟨c.dict, T, P, base⟩) := by
      rw [← hdict] at hrun
      have hrun : compressDictTables t c.table c.pristine c.mainBase c.dict message _ = _ := hrun
      simp only [DictCompressorN.compressInto, hrun, Run.ret_bind, Run.pure_eq]
    refine ⟨out.take n, ⟨.dict ⟨c.dict, T, P, base⟩⟩, ?_, .dict (h.tail ⟨_, _, _, _, haddr, hcall⟩),
      DictCompressorN.compressInto_ret (defaultDict_valid t) haddr h hcall,
      Sendable.restorable hmax haddr hn out⟩
    simp only [Wasm.Compressor.compress, DictCompressorN.compress, compressToVec_ok hmax hle hcall,
      Run.ret_bind, Run.pure_eq]

/-! ## Decompressing -/

/-- `decompress` gives a message back for its size. For a smaller one the decoder has no room,
and for a larger one the output is too short. -/
structure Restores (t : Target) (message bytes : List UInt8)
    (decompress : Nat → Run (Except String (List UInt8))) : Prop where
  same : decompress message.length = .ret (.ok message)
  smaller : ∀ n < message.length, ∃ expected, n < expected ∧ expected ≤ message.length ∧
    decompress n = .ret (.error (DecompressError.outputTooSmall expected n).display)
  larger : ∀ n, message.length < n → t.Addressable [bytes, List.replicate n 0] →
    decompress n = .ret (.error ("decompressed size mismatch: expected " ++ toString n ++ ", got " ++
      toString message.length))

/-- Decoding into a new vector of `n` bytes, and its size then checked. -/
theorem exactly_append {useDict : Bool} {n : Nat} {r : Except DecompressError Nat} {s : OutSink}
    (hn : n ≤ t.isizeMax)
    (h : decompressInternal t useDict bytes ⟨List.replicate n 0, 0⟩ dict = .ret (r, s)) :
    (do return exactly n (← appendToNew fun v => decompressAppendInternal t useDict bytes v n dict)) =
      Run.ret (exactly n (r.map fun _ => Decode.appended r s.output)) := by
  have happend := Decode.decompressAppendInternal_eq (v := []) (by rwa [List.length_nil, Nat.zero_add]) h
  rw [List.nil_append] at happend
  rw [appendToNew, happend]
  rfl

theorem restores_of_isBlockOf (useDict : Bool) (h : IsBlockOf (Decode.history useDict dict) message bytes)
    (haddr : t.Addressable [bytes, List.replicate message.length 0]) :
    Restores t message bytes fun n => do
      return exactly n (← appendToNew fun v => decompressAppendInternal t useDict bytes v n dict) := by
  have hdec := h.decode
  rw [← List.append_nil (Decode.history useDict dict)] at hdec
  have decodes {n : Nat} (hn : t.Addressable [bytes, List.replicate n 0]) :
      ∃ r s, decompressInternal t useDict bytes ⟨List.replicate n 0, 0⟩ dict = .ret (r, s) ∧
        Decode.DecodesInto (Decode.history useDict dict) bytes ⟨List.replicate n 0, 0⟩ r s := by
    obtain ⟨⟨r, s⟩, hrun, hd⟩ := Run.WP_iff.mp (Decode.decompressInternal_spec useDict dict
      ⟨List.replicate n 0, 0⟩ (Decode.Fits.of_addressable hn) (Nat.zero_le _))
    exact ⟨r, s, hrun, hd⟩
  have fits {n : Nat} (hle : message.length ≤ n) (hn : t.Addressable [bytes, List.replicate n 0]) :
      (do return exactly n (← appendToNew fun v => decompressAppendInternal t useDict bytes v n dict)) =
        Run.ret (Wasm.validateExactSize message n) := by
    obtain ⟨r, s, hrun, hd⟩ := decodes hn
    obtain ⟨rfl, hpos, htake⟩ := hd.ok message hdec (by simpa using hle)
    rw [exactly_append (Sendable.isize hn).2 hrun]
    have happended : Decode.appended (.ok message.length) s.output = message := by
      simpa [hpos, Decode.appended] using htake
    rw [happended]
    rfl
  refine ⟨?_, fun n hlt => ?_, fun n hlt hn => ?_⟩
  · rw [fits (Nat.le_refl _) haddr, Wasm.validateExactSize, if_pos rfl]
  · have hn : t.Addressable [bytes, List.replicate n 0] := by
      simp only [Target.Addressable, List.mem_cons, List.not_mem_nil, or_false, forall_eq_or_imp, forall_eq,
        List.length_replicate, List.map_cons, List.map_nil, List.sum_cons, List.sum_nil] at haddr ⊢
      omega
    obtain ⟨r, s, hrun, hd⟩ := decodes hn
    obtain ⟨expected, rfl, hgt, hle⟩ := hd.tooSmall message hdec (by simpa using hlt)
    refine ⟨expected, by simpa using hgt, by simpa using hle, ?_⟩
    rw [exactly_append (Sendable.isize hn).2 hrun, List.length_replicate]
    rfl
  · rw [fits (Nat.le_of_lt hlt) hn, Wasm.validateExactSize, if_neg (by omega)]

/-! ## Sessions -/

/-- The blocks of messages that are compressed one after the other. -/
def session (t : Target) (c : Wasm.Compressor) :
    List (List UInt8) → Run (List (List UInt8) × Wasm.Compressor)
  | [] => return ([], c)
  | message :: messages => do
    let (bytes, c) ← c.compress t message
    let (blocks, c) ← session t c messages
    return (bytes :: blocks, c)

theorem session_blocks : ∀ {c : Wasm.Compressor} (messages : List (List UInt8)), Reached t dict c →
    (∀ m ∈ messages, Sendable t m) →
    ∃ blocks c', session t c messages = .ret (blocks, c') ∧
      List.Forall₂ (fun m bytes => IsBlockOf dict m bytes ∧
        t.Addressable [bytes, List.replicate m.length 0]) messages blocks
  | c, [], _, _ => ⟨[], c, rfl, .nil⟩
  | c, m :: messages, hc, hm => by
    obtain ⟨bytes, c₁, hcall, hc₁, hblock⟩ := compress_returns hc (hm m (List.mem_cons_self ..))
    obtain ⟨blocks, c₂, hrest, hall⟩ := session_blocks messages hc₁ fun m h => hm m (List.mem_cons_of_mem _ h)
    refine ⟨bytes :: blocks, c₂, ?_, .cons hblock hall⟩
    rw [session, hcall, Run.ret_bind]
    dsimp only
    rw [hrest]
    rfl

/-- `compress` writes a block without a compressor. -/
theorem oneShot_block (hm : Sendable t message) : ∃ bytes, Wasm.compress t message = .ret bytes ∧
    IsBlockOf [] message bytes ∧ t.Addressable [bytes, List.replicate message.length 0] := by
  obtain ⟨max, hmax, haddr⟩ := hm
  obtain ⟨hlen, hle⟩ := Sendable.isize haddr
  have hreplicate : (List.replicate max (0 : UInt8)).length = max := List.length_replicate
  have hok : (compressIntoSinkWithDict t false message ⟨List.replicate max 0, 0⟩ []).WP fun p =>
      Outcome message.length max ((List.replicate max (0 : UInt8)).length - 0) _ _ p.1 p.2 :=
    compressIntoSinkWithDict_outcome hlen (hreplicate.trans_le hle) (Nat.zero_le _) (fun _ => rfl) hmax
  obtain ⟨⟨r, sink⟩, hrun, ho⟩ := Run.WP_iff.mp hok
  obtain ⟨n, rfl, hn⟩ := ho.ok (by omega) fun h => absurd h.1 (by decide)
  refine ⟨sink.output.take n, ?_, compressIntoSinkWithDict_ret haddr (fun _ => rfl) hrun n rfl,
    Sendable.restorable hmax haddr hn _⟩
  rw [Wasm.compress, Impl.compress, hmax, Run.ret_bind, Run.assert, if_pos hle, Run.ret_bind,
    SliceSink.new_zero, Run.ret_bind, hrun]
  rfl

/-- All messages come back through a decompressor, with a dictionary or without; and blocks
that are written without one from `decompress`. -/
theorem session_restores (t : Target) (dict : List UInt8) (messages : List (List UInt8))
    (hm : ∀ m ∈ messages, Sendable t m) :
    (∃ c, Wasm.Compressor.withDict t dict = .ret c ∧ ∃ blocks c', session t c messages = .ret (blocks, c') ∧
      List.Forall₂ (fun m bytes =>
        Restores t m bytes ((Wasm.Decompressor.withDict dict).decompress t bytes)) messages blocks) ∧
    ∃ c, Wasm.Compressor.new = .ret c ∧ ∃ blocks c', session t c messages = .ret (blocks, c') ∧
      List.Forall₂ (fun m bytes => Restores t m bytes (Wasm.Decompressor.new.decompress t bytes) ∧
        Restores t m bytes (Wasm.decompress t bytes)) messages blocks ∧
      ∀ m ∈ messages, ∃ bytes, Wasm.compress t m = .ret bytes ∧
        Restores t m bytes (Wasm.decompress t bytes) := by
  refine ⟨?_, ?_⟩
  · obtain ⟨pristine, hnew⟩ := DictCompressorN.new_ok (defaultDict_valid t) dict
    have hreached : Reached t dict ⟨.dict ⟨trimDict dict, HashTable.zero 16 _, pristine, 1⟩⟩ := .dict .refl
    obtain ⟨blocks, c', hsession, hall⟩ := session_blocks messages hreached hm
    refine ⟨⟨.dict _⟩, by rw [Wasm.Compressor.withDict, hnew]; rfl, blocks, c', hsession, hall.imp fun m bytes h => ?_⟩
    exact restores_of_isBlockOf true h.1 h.2
  · obtain ⟨blocks, c', hsession, hall⟩ := session_blocks messages (.plain (t := t) rfl .refl) hm
    refine ⟨⟨.plain _⟩, by rw [Wasm.Compressor.new, CompressorN.new_ok (defaultNodict_valid t)]; rfl, blocks, c',
      hsession, ?_, fun m hmem => ?_⟩
    · exact hall.imp fun m bytes h => ⟨restores_of_isBlockOf true h.1 h.2,
        restores_of_isBlockOf false h.1 h.2⟩
    · obtain ⟨bytes, hcall, hblock, hroom⟩ := oneShot_block (hm m hmem)
      exact ⟨bytes, hcall, restores_of_isBlockOf false hblock hroom⟩

/-- Two messages, the second of them empty. -/
theorem session_restores_two : ∃ c, Wasm.Compressor.withDict ⟨.w32, false, true⟩ [9, 9, 9, 9] = .ret c ∧
    ∃ blocks c', session ⟨.w32, false, true⟩ c [[1, 2, 3], []] = .ret (blocks, c') ∧
      List.Forall₂ (fun m bytes => Restores ⟨.w32, false, true⟩ m bytes
        ((Wasm.Decompressor.withDict [9, 9, 9, 9]).decompress ⟨.w32, false, true⟩ bytes))
        [[1, 2, 3], []] blocks :=
  (session_restores ⟨.w32, false, true⟩ [9, 9, 9, 9] [[1, 2, 3], []] (by
    simp only [List.mem_cons, List.not_mem_nil, or_false, forall_eq_or_imp, forall_eq]
    exact ⟨⟨23, rfl, by decide⟩, ⟨20, rfl, by decide⟩⟩)).1

end Lz4rip.Proof.Encode
