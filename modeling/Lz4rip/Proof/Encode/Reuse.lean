import Lz4rip.Proof.Encode.Sim

/-!
# Reused compressors

A compressor makes the same blocks whatever it was called with before
(`SameBlocks`): one with a dictionary those of a new one
(`dictCompressor_reuse`), and one without a dictionary those of any other whose
offset is not zero either, or of a new one if its offset is zero
(`compressor_epochs`). The tables of earlier calls are below the base or the
offset, so that none of their entries can be told from another
(`Entry.stale`), and the dictionary's table is never written to
(`compressInternal_readonly`).
-/

namespace Lz4rip.Proof.Encode

open Lz4rip.Impl
open Run (Post)

/-! ## The dictionary's table -/

section

variable {w N : Nat} {t : Target} {m : Mode} {input extDict source : List UInt8} {base : Nat}
  {T : HashTable w N}

/-- The table that a search is left with. -/
def SearchExit.table : SearchExit w N → HashTable w N
  | .ended T => T
  | .found s _ _ _ => s.table

/-- A step of a search keeps the table. -/
def Keeps (T : HashTable w N) : Run.Flow (Search w N) (SearchExit w N) → Prop :=
  Run.FlowAll (fun s => s.table = T) fun e => SearchExit.table e = T

theorem probe_keeps {near : Bool} {candidate at' from' nextCur : Nat} {curr : Run Nat}
    {s : Search w N} (hs : s.table = T) :
    Post (probe t near source candidate curr at' from' nextCur s) (Keeps T) :=
  .then fun _ => .then fun _ => .ite (fun _ => .then fun _ => .ite (fun _ => .then fun _ =>
    Run.Post_ret.mpr hs) fun _ => Run.Post_ret.mpr hs) fun _ => Run.Post_ret.mpr hs

theorem searchStep_readonly {off endPos : Nat} {s : Search w N} (hr : m.readonly = true)
    (hs : s.table = T) : Post (searchStep t m input extDict base off endPos s) (Keeps T) := by
  simp only [searchStep, insertAt, hr, if_true, Run.pure_eq, Run.ret_bind]
  refine .then fun _ => .then fun _ => .ite (fun _ => Run.Post_ret.mpr hs) fun _ => .then fun _ =>
    .then fun _ => .then fun _ => .then fun _ => .then fun _ => .ite (fun _ => Run.Post_ret.mpr hs)
    fun _ => .then fun _ => .then fun _ => .then fun _ => probe_keeps hs

theorem emitMatch_readonly {rest : Rest} {literalStart cur candidate offset : Nat} :
    Post (emitMatch t true base input source T rest literalStart cur candidate offset)
      fun r => r.1 = T := by
  simp only [emitMatch, insertAt, if_true, Run.pure_eq, Run.ret_bind]
  exact .then fun _ => .then fun _ => .then fun _ => .then fun _ => .then fun _ => .then fun _ =>
    .then fun _ => .then fun _ => Run.Post_ret.mpr rfl

theorem matchLoopStep_readonly {endPos : Nat} {s : MatchState w N} (hr : m.readonly = true)
    (hu : m.useDict = true) (hs : s.block.table = T) :
    Post (matchLoopStep t m input base endPos s)
      (Run.FlowAll (fun s => s.block.table = T) fun b => b.table = T) := by
  have hd : ∀ p : Prop, ¬ (¬ m.useDict ∧ p) := fun _ h => h.1 hu
  simp only [matchLoopStep, hr, if_neg (hd _), hs]
  exact emitMatch_readonly.bind fun x hx => .ite (fun _ => .then fun _ => .then fun _ =>
    Run.Post_ret.mpr hx) fun _ => Run.Post_ret.mpr hx

theorem blockStep_readonly {off endPos : Nat} {s : BlockState w N} (hr : m.readonly = true)
    (hu : m.useDict = true) (hs : s.table = T) :
    Post (blockStep t m input extDict base off endPos s)
      (Run.FlowAll (fun s => s.table = T) fun r => r.2 = T) := by
  refine (Run.Post.loop (fun s => s.table = T) (fun s hs => searchStep_readonly hr hs) _ _ hs).bind
    fun e he => ?_
  cases e with
  | ended T' => exact .then fun _ => Run.Post_ret.mpr he
  | found f source c d =>
    exact (Run.Post.loop (fun s => s.block.table = T)
      (fun s hs => matchLoopStep_readonly hr hu hs) _ _ he).bind fun b hb => Run.Post_ret.mpr hb

/-- A table that is used read-only comes back as it was. -/
theorem compressInternal_readonly {inputPos : Nat} {output : SliceSink} (hr : m.readonly = true)
    (hu : m.useDict = true) :
    Post (compressInternal t m input inputPos output T extDict base) fun r => r.2.2 = T := by
  refine .then fun _ => .then fun r => ?_
  cases r with
  | error e => exact Run.Post_ret.mpr rfl
  | ok _ =>
    refine .then fun _ => .then fun _ => .then fun _ => .then fun _ => .then fun _ => .then fun _ =>
      .ite (fun _ => Run.Post_ret.mpr rfl) fun _ => Run.Post.bind (P := fun r => r.2 = T) ?_
      fun x hx => .then fun _ => Run.Post_ret.mpr hx
    refine .ite (fun _ => .then fun _ => Run.Post_ret.mpr rfl) fun _ => .then fun _ => .then fun _ =>
      Run.Post.bind (P := fun T' => T' = T) (.ite (fun _ => .then fun _ => ?_) fun _ =>
        Run.Post_ret.mpr rfl) fun T' hT => .then fun _ => .then fun _ =>
      Run.Post.loop (fun s => s.table = T) (fun s hs => blockStep_readonly hr hu hs) _ _ hT
    rw [insertAt, if_pos hr]
    exact Run.Post_ret.mpr rfl

end

/-! ## The same blocks -/

section

variable {N : Nat} {t : Target} {input dict output output' out : List UInt8} {n : Nat}

/-- Every block of the input that `run` makes, given the output buffer, `run'`
makes in every buffer with no less room. -/
def MakesBlocksOf (t : Target) (input : List UInt8)
    (run run' : List UInt8 → Run (Except CompressError Nat × List UInt8)) : Prop :=
  ∀ output output' n out, t.Addressable [input, output] → output.length ≤ output'.length →
    run output = .ret (.ok n, out) →
    ∃ out', run' output' = .ret (.ok n, out') ∧ out'.take n = out.take n

/-- Both make the same blocks of the input. -/
def SameBlocks (t : Target) (input : List UInt8)
    (run run' : List UInt8 → Run (Except CompressError Nat × List UInt8)) : Prop :=
  MakesBlocksOf t input run run' ∧ MakesBlocksOf t input run' run

/-- The result and the output buffer of a call, without the compressor. -/
def blocks {γ : Type} (run : List UInt8 → Run (Except CompressError Nat × List UInt8 × γ))
    (output : List UInt8) : Run (Except CompressError Nat × List UInt8) := do
  let (r, out, _) ← run output
  return (r, out)

theorem blocks_eq_ret {γ : Type} {run : List UInt8 → Run (Except CompressError Nat × List UInt8 × γ)}
    {r : Except CompressError Nat} :
    blocks run output = .ret (r, out) ↔ ∃ c, run output = .ret (r, out, c) := by
  simp only [blocks, Run.bind_eq_ret, Prod.exists, Run.pure_eq, Run.ret.injEq, Prod.mk.injEq]
  refine ⟨?_, fun ⟨c, h⟩ => ⟨r, out, c, h, rfl, rfl⟩⟩
  rintro ⟨_, _, c, h, rfl, rfl⟩
  exact ⟨c, h⟩

/-- The same table and the same offset. -/
theorem compressInternal_same {w inputPos : Nat} {m : Mode} {base : Nat} {T T₁ : HashTable w N}
    {sink : SliceSink} (hf : base + input.length ≤ t.modulus) (hr : m.readonly → m.useDict)
    (hroom : output.length ≤ output'.length)
    (h : compressInternal t m input inputPos ⟨output, 0⟩ T dict base = .ret (.ok n, sink, T₁)) :
    ∃ sink', compressInternal t m input inputPos ⟨output', 0⟩ T dict base = .ret (.ok n, sink', T₁) ∧
      sink'.output.take n = sink.output.take n := by
  have hroom' : (⟨output, 0⟩ : SliceSink).output.length - 0 ≤
      (⟨output', 0⟩ : SliceSink).output.length - 0 := hroom
  have hsim : ∃ sink' T₁', compressInternal t m input inputPos ⟨output', 0⟩ T dict base =
      .ret (.ok n, sink', T₁') ∧ Alike (· = ·) T₁ T₁' ∧
      seg sink'.output 0 n = seg sink.output 0 n :=
    compressInternal_sim (agrees_eq w hf hr) (alike_eq.mpr rfl) (Nat.zero_le _) hroom' h
  obtain ⟨sink', T₁', hrun, hT, hseg⟩ := hsim
  obtain rfl := alike_eq.mp hT
  exact ⟨sink', hrun, hseg⟩

theorem compressIntoSinkByLength_same {useDict : Bool} {sink : SliceSink}
    (hlen : input.length + WINDOW_SIZE ≤ t.modulus) (hroom : output.length ≤ output'.length)
    (h : compressIntoSinkByLength t useDict input ⟨output, 0⟩ dict = .ret (.ok n, sink)) :
    ∃ sink', compressIntoSinkByLength t useDict input ⟨output', 0⟩ dict = .ret (.ok n, sink') ∧
      sink'.output.take n = sink.output.take n := by
  have hfalse : ∀ {p : Prop}, (false : Bool) = true → p := fun h => absurd h Bool.false_ne_true
  unfold compressIntoSinkByLength at h ⊢
  by_cases hsmall : dict.length + input.length < U16_MAX
  · simp only [if_pos hsmall, Run.bind_eq_ret, Run.ret_bind, Prod.exists,
      HashTable.new_ok 16 (defaultDict_valid t)] at h ⊢
    obtain ⟨T, d, hinit, r, sink, T₁, hrun, hret⟩ := h
    obtain ⟨rfl, rfl⟩ := Run.ret.inj hret
    obtain ⟨-, hd, -⟩ := (initDict_ok dict (defaultDict_valid t)).of_ret hinit
    obtain ⟨sink', hrun', htake⟩ := compressInternal_same (by omega) hfalse hroom hrun
    exact ⟨sink', ⟨T, d, hinit, _, _, _, hrun', rfl⟩, htake⟩
  · simp only [if_neg hsmall, Run.bind_eq_ret, Run.ret_bind, Prod.exists,
      HashTable.new_ok 32 (defaultNodict_valid t)] at h ⊢
    obtain ⟨T, d, hinit, r, sink, T₁, hrun, hret⟩ := h
    obtain ⟨rfl, rfl⟩ := Run.ret.inj hret
    obtain ⟨-, hd, -⟩ := (initDict_ok dict (defaultNodict_valid t)).of_ret hinit
    obtain ⟨sink', hrun', htake⟩ := compressInternal_same (by omega) hfalse hroom hrun
    exact ⟨sink', ⟨T, d, hinit, _, _, _, hrun', rfl⟩, htake⟩

/-- What is in the buffer is of no account, and neither is more room. -/
theorem compressIntoSinkWithDict_same {useDict : Bool} {sink : SliceSink}
    (hlen : input.length + WINDOW_SIZE ≤ t.modulus) (hroom : output.length ≤ output'.length)
    (h : compressIntoSinkWithDict t useDict input ⟨output, 0⟩ dict = .ret (.ok n, sink)) :
    ∃ sink', compressIntoSinkWithDict t useDict input ⟨output', 0⟩ dict = .ret (.ok n, sink') ∧
      sink'.output.take n = sink.output.take n := by
  unfold compressIntoSinkWithDict at h ⊢
  by_cases hshort : useDict ∧ dict.length < MINMATCH
  · rw [if_pos hshort] at h ⊢
    exact compressIntoSinkByLength_same hlen hroom h
  · rw [if_neg hshort] at h ⊢
    exact compressIntoSinkByLength_same hlen hroom h

/-! ## With a dictionary -/

/-- What the main table holds from earlier calls is of no account. -/
theorem compressDictTables_sim {table table' pristine T P : HashTableU32U16 N}
    {mainBase mainBase' b : Nat} (hN : ValidEntries t N) (hlen : input.length ≤ t.isizeMax)
    (hwin : dict.length ≤ WINDOW_SIZE) (ht : Below table mainBase) (ht' : Below table' mainBase')
    (hroom : output.length ≤ output'.length)
    (h : compressDictTables t table pristine mainBase dict input output =
      .ret (.ok n, out, T, P, b)) :
    ∃ out' c, compressDictTables t table' pristine mainBase' dict input output' =
        .ret (.ok n, out', c) ∧ out'.take n = out.take n := by
  have hmod := t.modulus_cases
  have hfits : dict.length + input.length ≤ t.modulus := by
    unfold Target.isizeMax at hlen
    simp only [WINDOW_SIZE] at hwin
    omega
  have hu16 : U16_MAX < t.modulus := by
    simp only [U16_MAX]
    omega
  have hroom' : (⟨output, 0⟩ : SliceSink).output.length - 0 ≤
      (⟨output', 0⟩ : SliceSink).output.length - 0 := hroom
  unfold compressDictTables at h ⊢
  by_cases hsmall : input.length ≤ DICT_READONLY_LIMIT ∧ dict.length + input.length < U16_MAX
  · simp only [if_pos hsmall, SliceSink.new_zero, Run.bind_eq_ret, Run.ret_bind, Prod.exists] at h
    obtain ⟨r, sink, T₁, hrun, hret⟩ := h
    obtain ⟨rfl, rfl, -⟩ := Run.ret.inj hret
    obtain ⟨sink', hrun', htake⟩ := compressInternal_same hfits (fun _ => rfl) hroom hrun
    refine ⟨sink'.output, (table', P, mainBase'), ?_, htake⟩
    simp only [if_pos hsmall, SliceSink.new_zero, Run.ret_bind, hrun', Run.pure_eq]
  · by_cases hnear : dict.length + input.length < U16_MAX
    · simp only [if_neg hsmall, if_pos hnear, SliceSink.new_zero, Run.bind_eq_ret, Run.ret_bind,
        Prod.exists] at h
      obtain ⟨r, sink, T₁, hrun, hret⟩ := h
      obtain ⟨rfl, rfl, -⟩ := Run.ret.inj hret
      have hT := resetDict_below input ht
      have hT' := resetDict_below input ht'
      have hbase : ∀ x : Nat, (if input.length > DICT_EPOCH_THRESHOLD ∨ x + input.length > U16_MAX
          then 1 else x) + input.length ≤ U16_MAX := fun x => by
        simp only [U16_MAX] at hnear ⊢
        split <;> omega
      have hb := hbase mainBase
      have hb' := hbase mainBase'
      have B : Bases t 16 input.length _ _ := ⟨Nat.lt_succ_of_le hb, Nat.lt_succ_of_le hb',
        Nat.lt_of_le_of_lt hb hu16, Nat.lt_of_le_of_lt hb' hu16⟩
      obtain ⟨sink', T₁', hrun', hseg⟩ := compressWithDictTable_sim B hb'
        (fun i hi => .stale (hT i hi) (hT' i hi)) (Nat.zero_le output'.length) hroom' hrun
      refine ⟨sink'.output, (T₁', pristine, (if input.length > DICT_EPOCH_THRESHOLD ∨
        mainBase' + input.length > U16_MAX then 1 else mainBase') + input.length), ?_, hseg⟩
      simp only [if_neg hsmall, if_pos hnear, SliceSink.new_zero, Run.ret_bind, hrun', Run.pure_eq]
    · simp only [if_neg hsmall, if_neg hnear, SliceSink.new_zero, Run.bind_eq_ret, Run.ret_bind,
        Prod.exists, HashTable.new_ok 32 hN] at h
      obtain ⟨T₁, d, hinit, r, sink, T₂, hrun, hret⟩ := h
      obtain ⟨rfl, rfl, -⟩ := Run.ret.inj hret
      obtain ⟨-, -, -, hd⟩ := (initDict_ok dict hN).of_ret hinit
      obtain rfl := hd hwin
      obtain ⟨sink', hrun', htake⟩ := compressInternal_same hfits
        (fun h => absurd h Bool.false_ne_true) hroom hrun
      refine ⟨sink'.output, (table', pristine, mainBase'), ?_, htake⟩
      simp only [if_neg hsmall, if_neg hnear, SliceSink.new_zero, Run.ret_bind,
        HashTable.new_ok 32 hN, hinit, hrun', Run.pure_eq]

/-- The dictionary's table of a compressor stays what it was. -/
theorem dictCall_pristine {c₀ c : DictCompressorRefN N}
    (h : Relation.ReflTransGen (DictCall t) c₀ c) : c.pristine = c₀.pristine := by
  induction h with
  | refl => rfl
  | tail _ hc ih =>
    obtain ⟨input, output, r, out, haddr, hrun⟩ := hc
    simp only [DictCompressorRefN.compressInto, compressDictTables, Run.bind_eq_ret, Prod.exists]
      at hrun
    obtain ⟨r', out', T, P, base, hrun, hret⟩ := hrun
    obtain ⟨rfl, rfl, rfl⟩ := Run.ret.inj hret
    rw [← ih]
    split at hrun
    · simp only [Run.bind_eq_ret, Prod.exists] at hrun
      obtain ⟨sink₀, hnew, r'', sink, T₁, hrun, hret⟩ := hrun
      obtain ⟨-, -, -, rfl, -⟩ := Run.ret.inj hret
      exact compressInternal_readonly rfl rfl _ hrun
    · split at hrun
      · simp only [Run.bind_eq_ret, Prod.exists] at hrun
        obtain ⟨sink₀, hnew, r'', sink, T₁, hrun, hret⟩ := hrun
        obtain ⟨-, -, -, rfl, -⟩ := Run.ret.inj hret
        rfl
      · simp only [Run.bind_eq_ret, Prod.exists] at hrun
        obtain ⟨T₀, hnew, T₁, d, hinit, sink₀, hnew, r'', sink, T₂, hrun, hret⟩ := hrun
        obtain ⟨-, -, -, rfl, -⟩ := Run.ret.inj hret
        rfl

/-- Two compressors with the same dictionary and its table. -/
theorem dictCompressor_makes {c c' : DictCompressorRefN N} (hN : ValidEntries t N)
    (hwin : c.dict.length ≤ WINDOW_SIZE) (hd : c'.dict = c.dict) (hp : c'.pristine = c.pristine)
    (ht : Below c.table c.mainBase) (ht' : Below c'.table c'.mainBase) :
    MakesBlocksOf t input (blocks (c.compressInto t input)) (blocks (c'.compressInto t input)) := by
  intro output output' n out haddr hroom h
  obtain ⟨hisize, -⟩ := haddr
  simp only [List.mem_cons, List.not_mem_nil, or_false, forall_eq_or_imp, forall_eq] at hisize
  obtain ⟨c₁, h⟩ := blocks_eq_ret.mp h
  simp only [DictCompressorRefN.compressInto, Run.bind_eq_ret, Prod.exists] at h
  obtain ⟨r, out₁, T, P, base, hrun, hret⟩ := h
  obtain ⟨rfl, rfl, -⟩ := Run.ret.inj hret
  obtain ⟨out', ⟨T', P', base'⟩, hrun', htake⟩ :=
    compressDictTables_sim hN hisize.1 hwin ht ht' hroom hrun
  refine ⟨out', blocks_eq_ret.mpr ⟨⟨T', P', base', c'.dict⟩, ?_⟩, htake⟩
  rw [DictCompressorRefN.compressInto, hd, hp, hrun']
  rfl

theorem borrow_blocks (c : DictCompressorN N) :
    blocks ((borrow c).compressInto t input) = blocks (c.compressInto t input) := by
  funext output
  simp only [blocks, DictCompressorN.compressInto, DictCompressorRefN.compressInto, borrow, bind_assoc]
  rfl

theorem dictCompressor_sameBlocks {c : DictCompressorRefN N} {pristine : HashTableU32U16 N}
    (hN : ValidEntries t N)
    (hc : Relation.ReflTransGen (DictCall t) ⟨HashTable.zero 16 N, pristine, 1, trimDict dict⟩ c) :
    SameBlocks t input (blocks (c.compressInto t input))
      (blocks (DictCompressorRefN.compressInto t
        ⟨HashTable.zero 16 N, pristine, 1, trimDict dict⟩ input)) := by
  obtain ⟨ht, hd⟩ := dictCall_below hN hc
  have hp := dictCall_pristine hc
  have hwin := length_trimDict dict
  have h₀ : Below (HashTable.zero 16 N) 1 := below_zero 16 N Nat.one_pos
  exact ⟨dictCompressor_makes hN (hd ▸ hwin) hd.symm hp.symm ht h₀,
    dictCompressor_makes hN hwin hd hp h₀ ht⟩

/-- After any calls, a compressor with a dictionary makes the blocks that a new
one with the same dictionary makes. -/
theorem dictCompressor_reuse (hN : ValidEntries t N) (dict input : List UInt8) :
    (∃ c₀, DictCompressorRefN.new t N dict = .ret c₀ ∧
      ∀ c, Relation.ReflTransGen (DictCall t) c₀ c →
        SameBlocks t input (blocks (c.compressInto t input)) (blocks (c₀.compressInto t input))) ∧
    (∃ c₀, DictCompressorN.new t N dict = .ret c₀ ∧
      ∀ c, Relation.ReflTransGen (OwningDictCall t) c₀ c →
        SameBlocks t input (blocks (c.compressInto t input)) (blocks (c₀.compressInto t input))) := by
  refine ⟨?_, ?_⟩
  · obtain ⟨pristine, hnew⟩ := DictCompressorRefN.new_ok hN dict
    exact ⟨_, hnew, fun c hc => dictCompressor_sameBlocks hN hc⟩
  · obtain ⟨pristine, hnew⟩ := DictCompressorN.new_ok hN dict
    refine ⟨_, hnew, fun c hc => ?_⟩
    rw [← borrow_blocks, ← borrow_blocks]
    exact dictCompressor_sameBlocks hN (hc.lift borrow fun _ _ => OwningDictCall.borrow)

/-- Bytes that are in the dictionary, on the smallest table. -/
theorem dictCompressor_reuse_match :
    let t : Target := ⟨.w32, false, false⟩
    let dict : List UInt8 := [1, 2, 3, 4, 5, 6, 7, 8, 9, 10, 11, 12]
    let input : List UInt8 := [1, 2, 3, 4, 5, 6, 7, 8, 9, 10, 11, 12, 13, 14, 15, 16]
    ∃ c₀, DictCompressorRefN.new t 256 dict = .ret c₀ ∧
      ∀ c, Relation.ReflTransGen (DictCall t) c₀ c →
        SameBlocks t input (blocks (c.compressInto t input)) (blocks (c₀.compressInto t input)) :=
  (dictCompressor_reuse ⟨by decide, by decide⟩ _ _).1

end

/-! ## Without a dictionary -/

section

variable {N : Nat} {t : Target} {input : List UInt8}

/-- The offset that a call counts its positions from. -/
def epochOffset (t : Target) (c : CompressorRefN N) (input : List UInt8) : Run Nat := do
  let (_, _, offset) ← preparePlainTable t c.table c.streamOffset input.length
  return offset

/-- An offset that is not zero goes with a short input, and with a table of
earlier calls that is used as it is. -/
theorem preparePlainTable_pos {table table' : HashTableU32 N} {streamOffset next offset : Nat}
    (h : preparePlainTable t table streamOffset input.length = .ret (table', next, offset))
    (h₀ : 0 < offset) :
    table' = table ∧ offset = streamOffset ∧
      streamOffset + input.length + (MAX_DISTANCE + 1) < t.modulus ∧
        streamOffset + input.length + (MAX_DISTANCE + 1) ≤ U32_MAX := by
  unfold preparePlainTable at h
  split at h
  · simp only [Run.bind_eq_ret] at h
    obtain ⟨_, _, _, _, hret⟩ := h
    obtain ⟨-, -, rfl⟩ := Run.ret.inj hret
    exact absurd h₀ (Nat.lt_irrefl 0)
  · dsimp only at h
    split at h
    · obtain ⟨rfl, -, rfl⟩ := Run.ret.inj h
      exact ⟨rfl, rfl, ‹_›⟩
    · obtain ⟨-, -, rfl⟩ := Run.ret.inj h
      exact absurd h₀ (Nat.lt_irrefl 0)

/-- With offset zero the table is zeroed, unless no call was before. -/
theorem preparePlainTable_zero {table table' : HashTableU32 N} {streamOffset next : Nat}
    (h₀ : streamOffset = 0 → table = HashTable.zero 32 N)
    (h : preparePlainTable t table streamOffset input.length = .ret (table', next, 0)) :
    table' = HashTable.zero 32 N := by
  unfold preparePlainTable at h
  split at h
  · simp only [Run.bind_eq_ret] at h
    obtain ⟨_, _, _, _, hret⟩ := h
    obtain ⟨rfl, -, -⟩ := Run.ret.inj hret
    rfl
  · dsimp only at h
    split at h
    · obtain ⟨rfl, -, rfl⟩ := Run.ret.inj h
      exact h₀ rfl
    · obtain ⟨rfl, -, -⟩ := Run.ret.inj h
      rfl

/-- A new compressor starts at offset zero. -/
theorem preparePlainTable_new (hlen : input.length ≤ t.isizeMax) :
    ∃ next, preparePlainTable t (HashTable.zero 32 N) 0 input.length =
      .ret (HashTable.zero 32 N, next, 0) := by
  have hmod := t.modulus_cases
  unfold Target.isizeMax at hlen
  unfold preparePlainTable
  split
  · have hadd : ∀ x y : Nat, x + y < t.modulus → t.add x y = .ret (x + y) := fun x y h => if_pos h
    rw [hadd _ _ (by simp only [MAX_DISTANCE]; omega), Run.ret_bind,
      hadd _ _ (by simp only [MAX_DISTANCE]; omega)]
    exact ⟨_, rfl⟩
  · dsimp only
    split
    · exact ⟨_, rfl⟩
    · exact ⟨_, rfl⟩

/-- What two calls make whose tables and offsets cannot be told apart. -/
theorem compressPlainTable_makes {c c' : CompressorRefN N} {T T' : HashTableU32 N}
    {next next' offset offset' : Nat} {E : Nat → Nat → Prop}
    (hprep : preparePlainTable t c.table c.streamOffset input.length = .ret (T, next, offset))
    (hprep' : preparePlainTable t c'.table c'.streamOffset input.length = .ret (T', next', offset'))
    (h₀ : offset = 0 ↔ offset' = 0)
    (A : ∀ m : Mode, m.useDict = false → m.readonly = false →
      Agrees t m 32 input.length offset offset' E) (hT : Alike E T T') :
    MakesBlocksOf t input (blocks (c.compressInto t input)) (blocks (c'.compressInto t input)) := by
  intro output output' n out haddr hroom h
  obtain ⟨c₁, h⟩ := blocks_eq_ret.mp h
  simp only [CompressorRefN.compressInto, compressPlainTable, hprep, SliceSink.new_zero,
    Run.bind_eq_ret, Run.ret_bind, Prod.exists, Run.pure_eq] at h
  obtain ⟨r, out₁, T₁, next₁, ⟨r', sink, T₂, hrun, hret⟩, hret'⟩ := h
  obtain ⟨rfl, rfl, rfl, rfl⟩ := Run.ret.inj hret
  obtain ⟨rfl, rfl, -⟩ := Run.ret.inj hret'
  have hmode : offset' > 0 ↔ offset > 0 := by omega
  have hno : (if offset > 0 then (⟨false, true, false, true⟩ : Mode)
      else if input.length ≤ MAX_DISTANCE + 1 then ⟨false, false, false, true⟩
      else ⟨false, false, false, false⟩).useDict = false ∧
      (if offset > 0 then (⟨false, true, false, true⟩ : Mode)
      else if input.length ≤ MAX_DISTANCE + 1 then ⟨false, false, false, true⟩
      else ⟨false, false, false, false⟩).readonly = false := by
    split
    · exact ⟨rfl, rfl⟩
    · split <;> exact ⟨rfl, rfl⟩
  have hroom' : (⟨output, 0⟩ : SliceSink).output.length - 0 ≤
      (⟨output', 0⟩ : SliceSink).output.length - 0 := hroom
  obtain ⟨sink', T₁', hrun', -, htake⟩ := compressInternal_sim (A _ hno.1 hno.2) hT
    (Nat.zero_le output'.length) hroom' hrun
  refine ⟨sink'.output, blocks_eq_ret.mpr ⟨⟨T₁', next'⟩, ?_⟩, htake⟩
  simp only [CompressorRefN.compressInto, compressPlainTable, hprep', SliceSink.new_zero,
    Run.ret_bind, hmode, hrun', Run.pure_eq]

/-- After a call the stream offset is not zero. -/
theorem plainCall_streamOffset {c : CompressorRefN N} (hN : ValidEntries t N)
    (h : Relation.ReflTransGen (PlainCall t) ⟨HashTable.zero 32 N, 0⟩ c) :
    c.streamOffset = 0 → c.table = HashTable.zero 32 N := by
  cases h with
  | refl => exact fun _ => rfl
  | tail hprev hc =>
    obtain ⟨input, output, r, out, haddr, hrun⟩ := hc
    simp only [CompressorRefN.compressInto, compressPlainTable, Run.bind_eq_ret, Prod.exists] at hrun
    obtain ⟨r', out', T, next, ⟨T', next', offset, hprep, sink₀, hnew, r'', sink, T'', hrun, hret⟩,
      hret'⟩ := hrun
    obtain ⟨rfl, rfl, rfl⟩ := Run.ret.inj hret'
    obtain ⟨rfl, rfl, rfl, rfl⟩ := Run.ret.inj hret
    have hlt := (preparePlainTable_ok (plainCall_below hN hprev) hprep).2.1
    intro h₀
    dsimp only at h₀
    omega

/-- Two calls with offsets other than zero. -/
theorem compressor_makes_pos {c c' : CompressorRefN N} {offset offset' : Nat}
    (ht : Below c.table (Nat.max 1 c.streamOffset)) (ht' : Below c'.table (Nat.max 1 c'.streamOffset))
    (h : epochOffset t c input = .ret offset) (h' : epochOffset t c' input = .ret offset')
    (h₀ : 0 < offset) (h₀' : 0 < offset') :
    MakesBlocksOf t input (blocks (c.compressInto t input)) (blocks (c'.compressInto t input)) := by
  simp only [epochOffset, Run.bind_eq_ret, Prod.exists] at h h'
  obtain ⟨T, next, o, hprep, hret⟩ := h
  obtain rfl := Run.ret.inj hret
  obtain ⟨T', next', o', hprep', hret'⟩ := h'
  obtain rfl := Run.ret.inj hret'
  obtain ⟨hT, ho, hf, hw⟩ := preparePlainTable_pos hprep h₀
  obtain ⟨hT', ho', hf', hw'⟩ := preparePlainTable_pos hprep' h₀'
  simp only [MAX_DISTANCE, U32_MAX] at hf hf' hw hw'
  subst hT hT' ho ho'
  rw [show Nat.max 1 c.streamOffset = c.streamOffset from Nat.max_eq_right h₀] at ht
  rw [show Nat.max 1 c'.streamOffset = c'.streamOffset from Nat.max_eq_right h₀'] at ht'
  exact compressPlainTable_makes hprep hprep' (by omega)
    (fun m hu hr => agrees_entry hu hr h₀ h₀' (by omega) (by omega) (by omega) (by omega))
    fun i hi => .stale (ht i hi) (ht' i hi)

/-- Two calls with offset zero. -/
theorem compressor_makes_zero {c c' : CompressorRefN N} (hlen : input.length ≤ t.isizeMax)
    (ht : c.streamOffset = 0 → c.table = HashTable.zero 32 N)
    (ht' : c'.streamOffset = 0 → c'.table = HashTable.zero 32 N)
    (h : epochOffset t c input = .ret 0) (h' : epochOffset t c' input = .ret 0) :
    MakesBlocksOf t input (blocks (c.compressInto t input)) (blocks (c'.compressInto t input)) := by
  have hmod := t.modulus_cases
  unfold Target.isizeMax at hlen
  simp only [epochOffset, Run.bind_eq_ret, Prod.exists] at h h'
  obtain ⟨T, next, o, hprep, hret⟩ := h
  obtain rfl := Run.ret.inj hret
  obtain ⟨T', next', o', hprep', hret'⟩ := h'
  obtain rfl := Run.ret.inj hret'
  obtain rfl := preparePlainTable_zero ht hprep
  obtain rfl := preparePlainTable_zero ht' hprep'
  exact compressPlainTable_makes hprep hprep' Iff.rfl
    (fun m _ hr => agrees_eq 32 (by omega) fun h => absurd (hr ▸ h) Bool.false_ne_true)
    (alike_eq.mpr rfl)

/-- After any calls, a compressor without a dictionary makes the same blocks
of an input as after any others, if neither call counts from zero, and those of
a new compressor if it does. -/
theorem compressor_epochs (hN : ValidEntries t N) (hlen : input.length ≤ t.isizeMax) :
    ∃ c₀, CompressorRefN.new N = .ret c₀ ∧
      (∀ c c', Relation.ReflTransGen (PlainCall t) c₀ c → Relation.ReflTransGen (PlainCall t) c₀ c' →
        ∀ offset offset', epochOffset t c input = .ret offset →
          epochOffset t c' input = .ret offset' → 0 < offset → 0 < offset' →
          SameBlocks t input (blocks (c.compressInto t input)) (blocks (c'.compressInto t input))) ∧
      ∀ c, Relation.ReflTransGen (PlainCall t) c₀ c → epochOffset t c input = .ret 0 →
        SameBlocks t input (blocks (c.compressInto t input)) (blocks (c₀.compressInto t input)) := by
  refine ⟨_, CompressorRefN.new_ok hN, fun c c' hc hc' offset offset' h h' h₀ h₀' => ?_,
    fun c hc h => ?_⟩
  · have ht := plainCall_below hN hc
    have ht' := plainCall_below hN hc'
    exact ⟨compressor_makes_pos ht ht' h h' h₀ h₀', compressor_makes_pos ht' ht h' h h₀' h₀⟩
  · obtain ⟨next, hnew⟩ := preparePlainTable_new (N := N) hlen
    have h' : epochOffset t (⟨HashTable.zero 32 N, 0⟩ : CompressorRefN N) input = .ret 0 := by
      rw [epochOffset, hnew]
      rfl
    have ht := plainCall_streamOffset hN hc
    exact ⟨compressor_makes_zero hlen ht (fun _ => rfl) h h',
      compressor_makes_zero hlen (fun _ => rfl) ht h' h⟩

/-- A run of one byte, on the smallest table. -/
theorem compressor_epochs_match :
    let t : Target := ⟨.w32, true, false⟩
    let input : List UInt8 := List.replicate 20 7
    ∃ c₀, CompressorRefN.new 256 = .ret c₀ ∧
      (∀ c c', Relation.ReflTransGen (PlainCall t) c₀ c → Relation.ReflTransGen (PlainCall t) c₀ c' →
        ∀ offset offset', epochOffset t c input = .ret offset →
          epochOffset t c' input = .ret offset' → 0 < offset → 0 < offset' →
          SameBlocks t input (blocks (c.compressInto t input)) (blocks (c'.compressInto t input))) ∧
      ∀ c, Relation.ReflTransGen (PlainCall t) c₀ c → epochOffset t c input = .ret 0 →
        SameBlocks t input (blocks (c.compressInto t input)) (blocks (c₀.compressInto t input)) :=
  compressor_epochs ⟨by decide, by decide⟩ (by decide)

end

end Lz4rip.Proof.Encode
