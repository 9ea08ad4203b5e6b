import Lz4rip.Framework.Sim
import Lz4rip.Proof.Encode.Compressor

/-!
# What a block depends on

Two runs of a block encoder on the same input, in step. Their buffers may hold
different bytes and have different room (`SameWritten`), and their tables may
hold different entries, as long as the searches cannot tell them apart
(`Agrees`): `compressInternal_sim` and `compressWithDictTable_sim`. The entries
of earlier inputs are such a difference (`Entry`).
-/

namespace Lz4rip.Proof.Encode

open Lz4rip.Impl
open Run (Sim Post FlowRel)
open Spec (extension lengthBytes sequenceBytes lastBytes)

/-! ## Writing -/

theorem putByte_ret (o : Rest) (b : UInt8) : Post (putByte o b) (Puts o [b]) := by
  cases h : o.rest with
  | nil =>
    rw [putByte, h]
    exact Run.Post_panic
  | cons _ _ => exact (putByte_ok (by rw [h]; exact Nat.zero_lt_succ _)).post

theorem putSlice_ret (t : Target) (o : Rest) (bytes : List UInt8) :
    Post (putSlice t o bytes) (Puts o bytes) := by
  by_cases h : bytes.length ≤ o.rest.length
  · exact (putSlice_ok t h).post
  · rw [putSlice, Run.chunk, if_neg (by omega)]
    exact Run.Post_panic

theorem putIntegerLoop_ret (o : Rest) (n k : Nat) :
    Post (Run.loop putIntegerLoop k (o, n)) fun (o', m) =>
      ∃ i, Puts o (List.replicate i 255) o' ∧ n = 255 * i + m ∧ m < 255 := by
  have h₀ : Puts o (List.replicate 0 255) o := .refl o
  refine Run.Post.loop (fun s => ∃ i, Puts o (List.replicate i 255) s.1 ∧ n = 255 * i + s.2)
    (fun (o', m) ⟨i, hp, hn⟩ => ?_) k (o, n) ⟨0, h₀, by omega⟩
  dsimp only at hn
  simp only [putIntegerLoop]
  refine .ite (fun hge => ?_) fun hlt => Run.Post_ret.mpr ⟨i, hp, hn, Nat.lt_of_not_le hlt⟩
  refine (putByte_ret o' 255).bind fun o'' h => Run.Post_ret.mpr ⟨i + 1, ?_, ?_⟩
  · rw [List.replicate_succ']
    exact hp.trans h
  · dsimp only
    omega

theorem putInteger_ret (o : Rest) (n : Nat) : Post (putInteger o n) (Puts o (extension n)) := by
  refine (putIntegerLoop_ret o n (n + 1)).bind fun (o', m) ⟨i, hp, hn, hlt⟩ =>
    (putByte_ret o' _).mono fun o'' h => ?_
  rw [extension, show n / 255 = i by omega, show n % 255 = m by omega]
  exact hp.trans h

theorem putLength_ret (o : Rest) (n : Nat) : Post (putLength o n) (Puts o (lengthBytes n)) := by
  unfold putLength
  refine .ite (fun hn => ?_) fun hn => ?_
  · rw [lengthBytes, if_neg (by omega)]
    exact putInteger_ret o _
  · rw [lengthBytes, if_pos (by omega)]
    exact Run.Post_ret.mpr (.refl o)

theorem handleLastLiterals_ret (t : Target) (o : Rest) (input : List UInt8) (start : Nat) :
    Post (handleLastLiterals t o input start) fun o' =>
      start ≤ input.length ∧ Puts o (lastBytes (input.drop start)) o' := by
  have hl : (input.drop start).length = input.length - start := List.length_drop
  by_cases hs : start ≤ input.length
  · rw [handleLastLiterals, Run.sub, if_pos hs, Run.ret_bind, ← hl]
    refine (putByte_ret o _).bind fun o₁ h₁ => (putLength_ret o₁ _).bind fun o₂ h₂ =>
      (putSlice_ret t o₂ _).mono fun o₃ h₃ => ⟨hs, ?_⟩
    have := (h₁.trans h₂).trans h₃
    rwa [tokenFromLiteral_eq] at this
  · rw [handleLastLiterals, Run.sub, if_neg hs]
    exact Run.Post_panic

section

variable {t : Target} {o : Rest} {input : List UInt8} {start litLen offset matchLen : Nat}

theorem emitLongSequence_ret :
    Post (emitLongSequence t o input start litLen offset matchLen) fun o' =>
      start + litLen ≤ input.length ∧
        Puts o (sequenceBytes ⟨seg input start litLen, offset, 4 + matchLen⟩) o' := by
  by_cases hi : start + litLen ≤ input.length
  · have hl : (seg input start litLen).length = litLen := length_seg hi
    rw [emitLongSequence, Run.chunk_eq hi, Run.ret_bind]
    refine (putByte_ret o _).bind fun o₁ h₁ => (putLength_ret o₁ _).bind fun o₂ h₂ =>
      (putSlice_ret t o₂ _).bind fun o₃ h₃ => (putSlice_ret t o₃ _).bind fun o₄ h₄ =>
      (putLength_ret o₄ _).mono fun o₅ h₅ => ⟨hi, ?_⟩
    have := (((h₁.trans h₂).trans h₃).trans h₄).trans h₅
    rw [tokenFromLiteralAndMatchLength_eq] at this
    simpa only [sequenceBytes, List.cons_append, List.nil_append, hl, Nat.add_sub_cancel_left]
      using this
  · rw [emitLongSequence, Run.chunk, if_neg hi]
    exact Run.Post_panic

theorem emitSequence_ret : Post (emitSequence t o input start litLen offset matchLen) fun o' =>
    start + litLen ≤ input.length ∧
      Puts o (sequenceBytes ⟨seg input start litLen, offset, 4 + matchLen⟩) o' := by
  unfold emitSequence
  refine .ite (fun hs => ?_) fun _ => emitLongSequence_ret
  exact (emitShortSequence_ok hs.1.1 hs.1.2 hs.2.1 hs.2.2).post.mono fun o' h => ⟨by omega, h⟩

end

/-- Two buffers with the same written, the second with no less room. -/
structure SameWritten (room room' : Nat) (o o' : Rest) : Prop where
  written : o'.written = o.written
  le : room ≤ room'
  room : o.written.length + o.rest.length = room
  room' : o'.written.length + o'.rest.length = room'

namespace SameWritten

variable {room room' : Nat} {o o' : Rest}

theorem puts {bytes : List UInt8} {p p' : Rest} (h : SameWritten room room' o o')
    (hp : Puts o bytes p) (hp' : Puts o' bytes p') : SameWritten room room' p p' := by
  have hw := hp.written
  have hw' := hp'.written
  have hr := hp.rest
  have hr' := hp'.rest
  have := h.room
  have := h.room'
  refine ⟨by rw [hw, hw', h.written], h.le, ?_, ?_⟩
  · rw [hw, List.length_append]
    omega
  · rw [hw', List.length_append]
    omega

/-- What fits one buffer fits the other. -/
theorem fits {bytes : List UInt8} {p : Rest} (h : SameWritten room room' o o')
    (hp : Puts o bytes p) : bytes.length ≤ o'.rest.length := by
  have h₁ := congrArg List.length h.written
  have h₂ := hp.rest
  have := h.le
  have := h.room
  have := h.room'
  omega

theorem emitSequence {t : Target} {input : List UInt8} {start litLen offset matchLen : Nat}
    (h : SameWritten room room' o o') :
    Sim (SameWritten room room') (emitSequence t o input start litLen offset matchLen)
      (emitSequence t o' input start litLen offset matchLen) := fun p hp => by
  obtain ⟨hi, hp⟩ := emitSequence_ret p hp
  obtain ⟨p', hrun, hp'⟩ := Run.WP_iff.mp (emitSequence_ok (t := t) hi (h.fits hp))
  exact ⟨p', hrun, h.puts hp hp'⟩

theorem handleLastLiterals {t : Target} {input : List UInt8} {start : Nat}
    (h : SameWritten room room' o o') :
    Sim (SameWritten room room') (handleLastLiterals t o input start)
      (handleLastLiterals t o' input start) := fun p hp => by
  obtain ⟨hs, hp⟩ := handleLastLiterals_ret t o input start p hp
  obtain ⟨p', hrun, hp'⟩ := Run.WP_iff.mp (handleLastLiterals_ok (t := t) hs (h.fits hp))
  exact ⟨p', hrun, h.puts hp hp'⟩

end SameWritten

/-- The same is written, and there is the same room. -/
def SameFront (p q : Rest) : Prop := q.written = p.written ∧ q.rest.length = p.rest.length

theorem SameWritten.front {room : Nat} {p q : Rest} (h : SameWritten room room p q) :
    SameFront p q := by
  have := congrArg List.length h.written
  have := h.room
  have := h.room'
  exact ⟨h.written, by omega⟩

/-- Both paths of `emitSequence` write the same sequence. The path that copies 16
literal bytes is taken only where both buffers have what it copies; what it writes
too much lies behind what is written, where no later write looks. -/
structure SamePaths (t : Target) (o : Rest) (input : List UInt8)
    (start litLen offset matchLen : Nat) : Prop where
  long : ¬ (start + 16 ≤ input.length ∧ 19 ≤ o.rest.length) →
    emitSequence t o input start litLen offset matchLen =
      emitLongSequence t o input start litLen offset matchLen
  same : ∃ p q, emitSequence t o input start litLen offset matchLen = .ret p ∧
    emitLongSequence t o input start litLen offset matchLen = .ret q ∧
    Puts o (sequenceBytes ⟨seg input start litLen, offset, 4 + matchLen⟩) p ∧
    Puts o (sequenceBytes ⟨seg input start litLen, offset, 4 + matchLen⟩) q ∧
    (∀ input start litLen offset matchLen, Sim SameFront
      (emitSequence t p input start litLen offset matchLen)
      (emitSequence t q input start litLen offset matchLen)) ∧
    ∀ input start, Sim SameFront (handleLastLiterals t p input start)
      (handleLastLiterals t q input start)

/-- Wherever a sequence fits, its paths agree. -/
theorem emitSequence_paths (t : Target) {o : Rest} {input : List UInt8}
    {start litLen offset matchLen : Nat} (hi : start + litLen ≤ input.length)
    (hr : (sequenceBytes ⟨seg input start litLen, offset, 4 + matchLen⟩).length ≤ o.rest.length) :
    SamePaths t o input start litLen offset matchLen := by
  obtain ⟨p, hp, hputs⟩ := Run.WP_iff.mp (emitSequence_ok (t := t) hi hr)
  obtain ⟨q, hq, hputs'⟩ := Run.WP_iff.mp (emitLongSequence_ok (t := t) hi hr)
  have hsame : SameWritten (o.written.length + o.rest.length) (o.written.length + o.rest.length) p q :=
    SameWritten.puts ⟨rfl, Nat.le_refl _, rfl, rfl⟩ hputs hputs'
  refine ⟨fun hn => if_neg fun h => hn ⟨h.2.2, h.2.1⟩, p, q, hp, hq, hputs, hputs', ?_, ?_⟩
  · exact fun _ _ _ _ _ => hsame.emitSequence.mono fun _ _ => SameWritten.front
  · exact fun _ _ => hsame.handleLastLiterals.mono fun _ _ => SameWritten.front

/-- Three literals, with 16 bytes of both buffers at hand. -/
theorem emitSequence_paths_short :
    SamePaths ⟨.w64, false, false⟩ ⟨[7], List.replicate 24 9⟩ (List.replicate 20 5) 1 3 2 6 :=
  emitSequence_paths ⟨.w64, false, false⟩ (by decide) (by decide)

/-! ## Tables -/

section

variable {w N : Nat} {E : Nat → Nat → Prop} {T T' : HashTable w N}

/-- The entries of two tables are related. -/
def Alike (E : Nat → Nat → Prop) (T T' : HashTable w N) : Prop :=
  ∀ i, (h : i < N) → E T.dict[i].toNat T'.dict[i].toNat

theorem alike_eq : Alike (· = ·) T T' ↔ T = T' := by
  refine ⟨fun h => ?_, fun h => h ▸ fun _ _ => rfl⟩
  obtain ⟨v⟩ := T
  obtain ⟨v'⟩ := T'
  exact congrArg _ (Vector.ext fun i hi => BitVec.eq_of_toNat_eq (h i hi))

theorem Alike.getAt (h : Alike E T T') (i : Nat) : Sim E (T.getAt i) (T'.getAt i) := by
  unfold HashTable.getAt
  split
  · exact .ret (h i ‹_›)
  · exact .panic

theorem Alike.putAt {val val' : Nat} (h : Alike E T T') (hv : E (val % 2 ^ w) (val' % 2 ^ w))
    (i : Nat) : Sim (Alike E) (T.putAt i val) (T'.putAt i val') := by
  unfold HashTable.putAt
  split
  · refine .ret fun j hj => ?_
    simp only [Vector.getElem_set]
    split
    · rwa [BitVec.toNat_ofNat, BitVec.toNat_ofNat]
    · exact h j hj
  · exact .panic

/-- Entries that the searches of an input of `n` bytes cannot tell apart, where
one counts positions from `base` and the other from `base'`: both are before
the input, or both are the same position of it. -/
inductive Entry (n base base' : Nat) : Nat → Nat → Prop
  | stale {c c' : Nat} : c < base → c' < base' → Entry n base base' c c'
  | pos (p : Nat) : p < n → Entry n base base' (p + base) (p + base')

/-- What `compress_internal` needs of two entries that `E` relates. A dictionary
counts what is before the input, so that both must be the same then. -/
structure Agrees (t : Target) (m : Mode) (w n base base' : Nat) (E : Nat → Nat → Prop) : Prop where
  fits : base' + n ≤ t.modulus
  start : base = 0 ↔ base' = 0
  put : ∀ p < n, E ((p + base) % 2 ^ w) ((p + base') % 2 ^ w)
  dict : m.useDict → base = base' ∧ ∀ c c', E c c' → c = c'
  le : ∀ c c' p, E c c' → c ≤ base + p → c' ≤ base' + p
  wrapping : ∀ c c', E c c' → t.wrappingSub c base = t.wrappingSub c' base' ∨
    n ≤ t.wrappingSub c base ∧ n ≤ t.wrappingSub c' base'
  readonly : m.readonly → m.useDict

/-- The same entries. -/
theorem agrees_eq {t : Target} {m : Mode} {n base : Nat} (w : Nat) (hf : base + n ≤ t.modulus)
    (hr : m.readonly → m.useDict) : Agrees t m w n base base (· = ·) :=
  ⟨hf, Iff.rfl, fun _ _ => rfl, fun _ => ⟨rfl, fun _ _ h => h⟩, fun _ _ _ h hc => h ▸ hc,
    fun _ _ h => .inl (by rw [h]), hr⟩

/-- Without a dictionary, the entries of earlier inputs make no difference. -/
theorem agrees_entry {t : Target} {m : Mode} {n base base' : Nat} (hu : m.useDict = false)
    (hr : m.readonly = false) (h₀ : 0 < base) (h₀' : 0 < base') (hf : base + n ≤ t.modulus)
    (hf' : base' + n ≤ t.modulus) (hw : base + n ≤ 2 ^ w) (hw' : base' + n ≤ 2 ^ w) :
    Agrees t m w n base base' (Entry n base base') := by
  refine ⟨hf', by omega, fun p hp => ?_, fun h => absurd (hu ▸ h) Bool.false_ne_true, ?_, ?_,
    fun h => absurd (hr ▸ h) Bool.false_ne_true⟩
  · rw [Nat.mod_eq_of_lt (by omega), Nat.mod_eq_of_lt (by omega)]
    exact .pos p hp
  · intro c c' p h hc
    cases h with
    | stale _ h' => omega
    | pos q hq => omega
  · intro c c' h
    cases h with
    | stale h h' =>
      rw [t.wrappingSub_of_lt h (by omega), t.wrappingSub_of_lt h' (by omega)]
      exact .inr ⟨by omega, by omega⟩
    | pos q hq =>
      rw [t.wrappingSub_of_le (Nat.le_add_left _ _) (by omega),
        t.wrappingSub_of_le (Nat.le_add_left _ _) (by omega)]
      exact .inl (by omega)

end

/-! ## Searching -/

section

variable {w N : Nat} {t : Target} {m : Mode} {input extDict : List UInt8} {base base' : Nat}
  {E : Nat → Nat → Prop}

theorem rd64_ret {src : List UInt8} {pos v : Nat} (h : rd64 t src pos = .ret v) :
    pos + 8 ≤ src.length := by
  by_contra hn
  rw [rd64, Run.chunk, if_neg hn] at h
  cases h

theorem insertAt_sim {T T' : HashTable w N} {readonly : Bool} {hash pos : Nat} (hT : Alike E T T')
    (hput : E ((pos + base) % 2 ^ w) ((pos + base') % 2 ^ w)) (hf : pos + base' < t.modulus) :
    Sim (Alike E) (insertAt t readonly T hash pos base) (insertAt t readonly T' hash pos base') :=
  .ite Iff.rfl (fun _ => .ret hT) fun _ => .add (fun _ => hf) fun _ => hT.putAt hput hash

/-- Two searches at the same place. -/
def SameSearch (E : Nat → Nat → Prop) (s s' : Search w N) : Prop :=
  ∃ T', Alike E s.table T' ∧ s' = { s with table := T' }

/-- Two searches left the same way. -/
def SameExit (E : Nat → Nat → Prop) : SearchExit w N → SearchExit w N → Prop
  | .ended T, .ended T' => Alike E T T'
  | .found s source c o, .found s' source' c' o' =>
    SameSearch E s s' ∧ source' = source ∧ c' = c ∧ o' = o
  | _, _ => False

theorem probe_sim {s s' : Search w N} {near : Bool} {source : List UInt8} {candidate : Nat}
    {curr : Run Nat} {at' from' nextCur : Nat} (hs : SameSearch E s s') :
    Sim (FlowRel (SameSearch E) (SameExit E)) (probe t near source candidate curr at' from' nextCur s)
      (probe t near source candidate curr at' from' nextCur s') := by
  obtain ⟨T', hT, rfl⟩ := hs
  have hnext : SameSearch E { s with cur := nextCur } { s with table := T', cur := nextCur } :=
    ⟨T', hT, rfl⟩
  refine .same fun _ _ => .same fun _ _ => .ite Iff.rfl (fun _ => .same fun _ _ =>
    .ite Iff.rfl (fun _ => .same fun _ _ => .ret ⟨⟨T', hT, rfl⟩, rfl, rfl, rfl⟩) fun _ => .ret hnext)
    fun _ => .ret hnext

theorem searchStep_sim {off off' endPos : Nat} (A : Agrees t m w input.length base base' E)
    (hoff : m.useDict → off = off') {s s' : Search w N} (hs : SameSearch E s s') :
    Sim (FlowRel (SameSearch E) (SameExit E)) (searchStep t m input extDict base off endPos s)
      (searchStep t m input extDict base' off' endPos s') := by
  obtain ⟨T', hT, rfl⟩ := hs
  simp only [searchStep, Search.hash]
  refine .same fun count _ => .same fun nextCur hn => .ite Iff.rfl (fun _ => .ret hT) fun hend =>
    .same fun hash _ => .bind (hT.getAt hash) fun c c' hc => .same fun bytes hb =>
    .same fun fhash _ => ?_
  have hlt := rd64_ret hb
  have hle : s.cur ≤ nextCur := by
    have hw := Run.WP_iff.mpr ⟨nextCur, hn, rfl⟩
    rw [Target.WP_add] at hw
    exact hw.2 ▸ Nat.le_add_right _ _
  have hf := A.fits
  refine .bind (insertAt_sim hT (A.put _ (by omega)) (by omega)) fun T₁ T₁' hT₁ =>
    .assert (Or.imp_right (A.le _ _ _ hc)) fun _ => ?_
  have hs₁ : SameSearch E (⟨T₁, s.cur, count, bytes, fhash⟩ : Search w N)
      ⟨T₁', s.cur, count, bytes, fhash⟩ := ⟨T₁', hT₁, rfl⟩
  have hnext : SameSearch E (⟨T₁, nextCur, count, bytes, fhash⟩ : Search w N)
      ⟨T₁', nextCur, count, bytes, fhash⟩ := ⟨T₁', hT₁, rfl⟩
  cases hu : m.useDict with
  | true =>
    -- Both count from the same base and find the same entry.
    obtain ⟨rfl, heq⟩ := A.dict hu
    obtain rfl := heq _ _ hc
    obtain rfl := hoff hu
    refine .ite Iff.rfl (fun _ => .ite Iff.rfl (fun _ => .ret hnext) fun _ => .same fun _ _ =>
      .same fun _ _ => .same fun _ _ => probe_sim hs₁) fun _ => .same fun _ _ =>
      .ite Iff.rfl (fun _ => probe_sim hs₁) fun _ => .ite Iff.rfl (fun _ => probe_sim hs₁)
      fun _ => .ret hnext
  | false =>
    have hr : ¬ m.readonly := fun hr => absurd (hu ▸ A.readonly hr) Bool.false_ne_true
    have hd : ∀ p : Prop, ¬ ((false : Bool) = true ∧ p) := fun _ h => absurd h.1 Bool.false_ne_true
    rw [if_neg hr, if_neg hr]
    obtain heq | ⟨hge, hge'⟩ := A.wrapping _ _ hc
    · rw [← heq]
      refine .same fun _ _ => .ite Iff.rfl (fun _ => probe_sim hs₁) fun _ => ?_
      rw [if_neg (hd _), if_neg (hd _)]
      exact .ret hnext
    · have hout : ∀ pos, input.length ≤ pos → inInput m s.cur nextCur pos = .ret false :=
        fun pos hp => if_neg (by omega)
      rw [hout _ hge, hout _ hge', Run.ret_bind, Run.ret_bind, if_neg Bool.false_ne_true,
        if_neg Bool.false_ne_true, if_neg (hd _), if_neg (hd _)]
      exact .ret hnext

end

/-! ## Blocks -/

section

variable {w N : Nat} {t : Target} {m : Mode} {input extDict source : List UInt8} {base base' : Nat}
  {E : Nat → Nat → Prop} {room room' : Nat} {T T' : HashTable w N} {o o' : Rest}

theorem rd64Upto_ret {src : List UInt8} {pos limit v : Nat} (h : rd64Upto t src pos limit = .ret v) :
    pos ≤ limit := by
  by_contra hn
  rw [rd64Upto, Run.assert, if_neg hn] at h
  cases h

/-- Two states of the writing of a block, at the same place of the input. -/
def SameEmitted (E : Nat → Nat → Prop) (room room' : Nat)
    (r r' : HashTable w N × Rest × Nat) : Prop :=
  Alike E r.1 r'.1 ∧ SameWritten room room' r.2.1 r'.2.1 ∧ r'.2.2 = r.2.2

theorem emitMatch_sim {readonly : Bool} {literalStart cur candidate offset : Nat}
    (hT : Alike E T T') (ho : SameWritten room room' o o')
    (hput : ∀ p < input.length, E ((p + base) % 2 ^ w) ((p + base') % 2 ^ w))
    (hf : base' + input.length ≤ t.modulus) :
    Sim (SameEmitted E room room')
      (emitMatch t readonly base input source T o literalStart cur candidate offset)
      (emitMatch t readonly base' input source T' o' literalStart cur candidate offset) := by
  refine .same fun (c, d) _ => .same fun litLen _ => .same fun (n, c') _ => .sub id fun h8 =>
    .same fun at' _ => .same fun bytes hb => .same fun hash _ => ?_
  have hle := rd64Upto_ret hb
  exact .bind (insertAt_sim hT (hput _ (by omega)) (by omega)) fun T₁ T₁' hT₁ =>
    .bind ho.emitSequence fun o₁ o₁' ho₁ => .ret ⟨hT₁, ho₁, rfl⟩

/-- Two states of the block loop at the same place. -/
def SameBlock (E : Nat → Nat → Prop) (room room' : Nat) (s s' : BlockState w N) : Prop :=
  ∃ T' o', Alike E s.table T' ∧ SameWritten room room' s.rest o' ∧
    s' = { s with table := T', rest := o' }

/-- Two states of the match loop with the same match. -/
def SameMatch (E : Nat → Nat → Prop) (room room' : Nat) (s s' : MatchState w N) : Prop :=
  ∃ b', SameBlock E room room' s.block b' ∧ s' = { s with block := b' }

/-- The same block, with related tables. -/
def SameResult (E : Nat → Nat → Prop) (room room' : Nat) (r r' : Rest × HashTable w N) : Prop :=
  SameWritten room room' r.1 r'.1 ∧ Alike E r.2 r'.2

theorem matchLoopStep_sim {endPos : Nat} (A : Agrees t m w input.length base base' E)
    {s s' : MatchState w N} (hs : SameMatch E room room' s s') :
    Sim (FlowRel (SameMatch E room room') (SameBlock E room room'))
      (matchLoopStep t m input base endPos s) (matchLoopStep t m input base' endPos s') := by
  obtain ⟨b', ⟨T', o', hT, ho, rfl⟩, rfl⟩ := hs
  have hf := A.fits
  refine .bind (emitMatch_sim hT ho A.put hf) fun (T₁, o₁, cur) (T₁', o₁', cur') ⟨hT₁, ho₁, hc⟩ =>
    ?_
  dsimp only at hT₁ ho₁ hc ⊢
  subst hc
  have hdone : ∀ bytes hash, SameBlock E room room'
      (⟨T₁, o₁, cur', cur', bytes, hash⟩ : BlockState w N) ⟨T₁', o₁', cur', cur', bytes, hash⟩ :=
    fun _ _ => ⟨T₁', o₁', hT₁, ho₁, rfl⟩
  refine .ite Iff.rfl (fun ⟨hu, _⟩ => .same fun bytes hb => .same fun hash _ =>
    .bind (hT₁.getAt hash) fun c c' hc => ?_) fun _ => .ite Iff.rfl (fun _ => .same fun _ _ =>
    .same fun _ _ => .ret (hdone _ _)) fun _ => .ret (hdone _ _)
  have hlt := rd64_ret hb
  obtain heq | ⟨hge, hge'⟩ := A.wrapping _ _ hc
  · rw [← heq]
    refine .same fun _ _ => .ite Iff.rfl (fun _ => .add (fun _ => by omega) fun _ => ?_) fun _ =>
      .ret (hdone _ _)
    refine .bind (hT₁.putAt (A.put _ (by omega)) hash) fun T₂ T₂' hT₂ => .same fun _ _ => .ret ?_
    exact ⟨_, ⟨T₂', o₁', hT₂, ho₁, rfl⟩, rfl⟩
  · have hout : ∀ pos, input.length ≤ pos → isRematch t m input cur' pos bytes = .ret false :=
      fun pos hp => if_neg (by omega)
    rw [hout _ hge, hout _ hge', Run.ret_bind, Run.ret_bind, if_neg Bool.false_ne_true,
      if_neg Bool.false_ne_true]
    exact .ret (hdone _ _)

theorem blockStep_sim {off off' endPos : Nat} (A : Agrees t m w input.length base base' E)
    (hoff : m.useDict → off = off') {s s' : BlockState w N} (hs : SameBlock E room room' s s') :
    Sim (FlowRel (SameBlock E room room') (SameResult E room room'))
      (blockStep t m input extDict base off endPos s)
      (blockStep t m input extDict base' off' endPos s') := by
  obtain ⟨T', o', hT, ho, rfl⟩ := hs
  refine .bind (Sim.loop (SameSearch E) (fun _ _ => searchStep_sim A hoff) _ _ _ ⟨T', hT, rfl⟩)
    fun x x' hx => ?_
  match x, x', hx with
  | .ended T₁, .ended T₁', hT₁ =>
    exact .bind ho.handleLastLiterals fun o₁ o₁' ho₁ => .ret ⟨ho₁, hT₁⟩
  | .found f source c d, .found _ _ _ _, ⟨⟨T₁', hT₁, rfl⟩, rfl, rfl, rfl⟩ =>
    refine .bind (Sim.loop (SameMatch E room room') (fun _ _ => matchLoopStep_sim A) _ _ _ ?_)
      fun b b' hb => .ret hb
    exact ⟨_, ⟨T₁', o', hT₁, ho, rfl⟩, rfl⟩

theorem compressBlock_sim {inputPos : Nat} (A : Agrees t m w input.length base base' E)
    (hdict : m.useDict = false → extDict = []) (hT : Alike E T T')
    (ho : SameWritten room room' o o') :
    Sim (SameResult E room room') (compressBlock t m input inputPos o T extDict base)
      (compressBlock t m input inputPos o' T' extDict base') := by
  have hf := A.fits
  have hsub : extDict.length ≤ base → extDict.length ≤ base' := fun h => by
    cases hu : m.useDict with
    | true => exact (A.dict hu).1 ▸ h
    | false =>
      rw [hdict hu]
      exact Nat.zero_le _
  refine .ite Iff.rfl (fun _ => .bind ho.handleLastLiterals fun o₁ o₁' ho₁ =>
    .ret ⟨ho₁, hT⟩) fun hshort => .sub hsub fun _ => .same fun endPos _ => ?_
  have hstart : decide (inputPos = 0 ∧ base' = 0) = decide (inputPos = 0 ∧ base = 0) :=
    decide_eq_decide.mpr (and_congr_right fun _ => A.start.symm)
  simp only [LZ4_MIN_LENGTH, MFLIMIT] at hshort
  have hfirst : Sim (Alike E) (insertFirst t m.readonly (decide (inputPos = 0 ∧ base = 0)) input T)
      (insertFirst t m.readonly (decide (inputPos = 0 ∧ base = 0)) input T') := by
    refine .ite Iff.rfl (fun h => .same fun hash _ => ?_) fun _ => .ret hT
    have hb := (of_decide_eq_true h).2
    have hput := A.put 0 (by omega)
    rw [hb, A.start.mp hb] at hput
    exact insertAt_sim hT hput (by omega)
  dsimp only
  rw [hstart]
  refine .bind hfirst fun T₁ T₁' hT₁ => .same fun bytes _ => .same fun hash _ => ?_
  refine Sim.loop (SameBlock E room room') (fun _ _ => blockStep_sim A fun hu => ?_) _ _ _
    ⟨T₁', o', hT₁, ho, rfl⟩
  rw [(A.dict hu).1]

/-! ## Calls -/

variable {output output' sink : SliceSink} {n : Nat}

/-- A block that one sink has room for is the same in a sink with no less
room. -/
theorem writeBlock_sim {len : Nat} {block block' : Rest → Run (Rest × HashTable w N)}
    {T₁ : HashTable w N} (hpos : output'.pos ≤ output'.output.length)
    (hroom : output.output.length - output.pos ≤ output'.output.length - output'.pos)
    (hblock : ∀ o o', SameWritten (output.output.length - output.pos)
      (output'.output.length - output'.pos) o o' → Sim (SameResult E
        (output.output.length - output.pos) (output'.output.length - output'.pos)) (block o) (block' o'))
    (h : writeBlock t output T len block = .ret (.ok n, sink, T₁)) :
    ∃ sink' T₁', writeBlock t output' T' len block' = .ret (.ok n, sink', T₁') ∧ Alike E T₁ T₁' ∧
      seg sink'.output output'.pos n = seg sink.output output.pos n := by
  have hl : ∀ s : SliceSink, (s.output.drop s.pos).length = s.output.length - s.pos :=
    fun s => List.length_drop
  obtain ⟨hpos₀, max, hmax⟩ := writeBlock_inv
    (Run.WP_iff.mpr ⟨_, h, Eq.refl (Except.ok n, sink, T₁)⟩)
  rw [writeBlock, Run.assert, if_pos hpos₀, Run.ret_bind, hmax, Run.ret_bind] at h
  dsimp only at h
  split at h
  · cases h
  · rename_i hcap
    rw [hl] at hcap h
    obtain ⟨⟨o₁, T₂⟩, hrun, h⟩ := Run.bind_eq_ret.mp h
    dsimp only at h
    obtain ⟨⟨o₁', T₁'⟩, hrun', hw, hT₁⟩ := hblock ⟨[], output.output.drop output.pos⟩
      ⟨[], output'.output.drop output'.pos⟩ ⟨rfl, hroom, by rw [hl]; exact Nat.zero_add _,
        by rw [hl]; exact Nat.zero_add _⟩ _ hrun
    have hr := hw.room
    have hr' := hw.room'
    have hww := hw.written
    dsimp only at hr hr' hww hT₁
    rw [Run.sub, if_pos (by omega), Run.ret_bind] at h
    obtain ⟨rfl, rfl, rfl⟩ := Run.ret.inj h
    have hn' : output'.output.length - output'.pos - o₁'.rest.length =
        output.output.length - output.pos - o₁.rest.length := by
      rw [hww] at hr'
      omega
    refine ⟨⟨output'.output.take output'.pos ++ o₁'.written ++ o₁'.rest, output'.pos +
      (output.output.length - output.pos - o₁.rest.length)⟩, T₁', ?_, hT₁, ?_⟩
    · rw [writeBlock, Run.assert, if_pos hpos, Run.ret_bind, hmax, Run.ret_bind]
      dsimp only
      rw [hl, if_neg (by omega), hrun', Run.ret_bind]
      dsimp only
      rw [Run.sub, if_pos (by omega), Run.ret_bind, hn']
      rfl
    · have hseg : ∀ (s : SliceSink) (p : Rest), s.pos ≤ s.output.length →
          seg (s.output.take s.pos ++ p.written ++ p.rest) s.pos p.written.length = p.written :=
        fun s p hs => by
          have htake : (s.output.take s.pos).length = s.pos := by
            rw [List.length_take]
            omega
          have := seg_append_right (s.output.take s.pos) (p.written ++ p.rest) 0 p.written.length
          rw [htake, Nat.add_zero, ← List.append_assoc] at this
          rw [this, seg, List.drop_zero, List.take_left]
      have hw₁ : output.output.length - output.pos - o₁.rest.length = o₁.written.length := by omega
      dsimp only
      rw [hw₁, hseg _ o₁ hpos₀, ← hww, hseg _ o₁' hpos]

/-- The same input, the same block: in a sink with no less room, and with a
table that the searches cannot tell from the first. -/
theorem compressInternal_sim {inputPos : Nat} {T₁ : HashTable w N}
    (A : Agrees t m w input.length base base' E) (hT : Alike E T T')
    (hpos : output'.pos ≤ output'.output.length)
    (hroom : output.output.length - output.pos ≤ output'.output.length - output'.pos)
    (h : compressInternal t m input inputPos output T extDict base = .ret (.ok n, sink, T₁)) :
    ∃ sink' T₁', compressInternal t m input inputPos output' T' extDict base' =
        .ret (.ok n, sink', T₁') ∧ Alike E T₁ T₁' ∧
      seg sink'.output output'.pos n = seg sink.output output.pos n := by
  have hw := Run.WP_iff.mpr ⟨_, h, Eq.refl (Except.ok n, sink, T₁)⟩
  simp only [compressInternal, Run.WP_bind, Run.WP_assert] at hw
  obtain ⟨hin, hw⟩ := hw
  have hcheck : checkBounds t m.useDict input extDict base' =
      checkBounds t m.useDict input extDict base := by
    cases hu : m.useDict with
    | true => rw [(A.dict hu).1]
    | false => rfl
  obtain ⟨r, hr, hw⟩ := Run.WP_iff.mp hw
  have hdict : m.useDict = false → extDict = [] := by
    obtain ⟨e, rfl⟩ | ⟨-, -, hno⟩ := checkBounds_inv (fun r' => r' = r) (Run.WP_iff.mpr ⟨r, hr, rfl⟩)
    · cases (Prod.mk.inj hw).1
    · exact hno
  cases r with
  | error e => cases (Prod.mk.inj hw).1
  | ok _ =>
    simp only [Run.WP_bind, Run.WP_assert] at hw
    obtain ⟨hoff, hro, hsmall, hnear, hw⟩ := hw
    have hoff' : m.hasOffset ∨ base' = 0 := hoff.imp_right A.start.mp
    have hbase : ∀ {b : Nat}, (m.hasOffset ∨ b = 0) → (if m.hasOffset then b else 0) = b :=
      fun {b} hb => by
        split
        · rfl
        · exact (hb.resolve_left ‹_›).symm
    have hro' : m.readonly → m.useDict ∧ base' = extDict.length := fun hm =>
      ⟨(hro hm).1, by rw [← (A.dict (hro hm).1).1, (hro hm).2]⟩
    rw [hbase hoff] at hw
    obtain ⟨x, hx, rfl⟩ := Run.WP_iff.mp hw
    have hsim : ∃ sink' T₁', writeBlock t output' T' (input.length - inputPos) (fun rest =>
        compressBlock t m input inputPos rest T' extDict base') = .ret (.ok n, sink', T₁') ∧
          Alike E T₁ T₁' ∧ seg sink'.output output'.pos n = seg sink.output output.pos n :=
      writeBlock_sim hpos hroom (fun o o' ho => compressBlock_sim A hdict hT ho) hx
    obtain ⟨sink', T₁', hrun, hT₁, hseg⟩ := hsim
    refine ⟨sink', T₁', ?_, hT₁, hseg⟩
    simp only [compressInternal, Run.assert, if_pos hin, hcheck, hr, if_pos hoff', if_pos hro',
      if_pos hsmall, if_pos hnear, Run.ret_bind, hbase hoff']
    exact hrun

end

/-! ## The dual-table route -/

section

variable {w N : Nat} {t : Target} {input extDict : List UInt8} {base base' offset : Nat}
  {dictTable T T' : HashTable w N} {room room' : Nat} {o o' : Rest}

/-- The bases of two main tables leave room for the input's positions. -/
structure Bases (t : Target) (w n base base' : Nat) : Prop where
  lt : base + n < 2 ^ w
  lt' : base' + n < 2 ^ w
  fits : base + n < t.modulus
  fits' : base' + n < t.modulus

theorem Bases.put (B : Bases t w input.length base base') {p : Nat} (hp : p < input.length) :
    Entry input.length base base' ((p + base) % 2 ^ w) ((p + base') % 2 ^ w) := by
  have := B.lt
  have := B.lt'
  rw [Nat.mod_eq_of_lt (by omega), Nat.mod_eq_of_lt (by omega)]
  exact .pos p hp

theorem getHashAt_ret {pos hash : Nat} (h : HashTable.getHashAt t N input pos = .ret hash) :
    pos + 8 ≤ input.length := by
  obtain ⟨v, hv, -⟩ := Run.bind_eq_ret.mp h
  exact rd64_ret hv

theorem dictProbe_sim {E : Nat → Nat → Prop} {hash nextCur : Nat} {s s' : Search w N}
    (hs : SameSearch E s s') :
    Sim (FlowRel (SameSearch E) (SameExit E))
      (dictProbe t input extDict dictTable offset hash nextCur s)
      (dictProbe t input extDict dictTable offset hash nextCur s') := by
  obtain ⟨T', hT, rfl⟩ := hs
  exact .same fun _ _ => .ite Iff.rfl (fun _ => .same fun _ _ => .same fun _ _ =>
    probe_sim ⟨T', hT, rfl⟩) fun _ => .ret ⟨T', hT, rfl⟩

theorem dictSearchStep_sim {endPos : Nat} (B : Bases t w input.length base base')
    {s s' : Search w N} (hs : SameSearch (Entry input.length base base') s s') :
    Sim (FlowRel (SameSearch (Entry input.length base base'))
        (SameExit (Entry input.length base base')))
      (dictSearchStep t input extDict dictTable offset base endPos s)
      (dictSearchStep t input extDict dictTable offset base' endPos s') := by
  obtain ⟨T', hT, rfl⟩ := hs
  have hf := B.fits
  have hf' := B.fits'
  simp only [dictSearchStep]
  refine .same fun count _ => .same fun nextCur hn => .ite Iff.rfl (fun _ => .ret hT) fun hend =>
    .same fun fhash hh => .bind (hT.getAt _) fun c c' hc => ?_
  have hlt := getHashAt_ret hh
  have hle : s.cur ≤ nextCur := by
    have hw := Run.WP_iff.mpr ⟨nextCur, hn, rfl⟩
    rw [Target.WP_add] at hw
    exact hw.2 ▸ Nat.le_add_right _ _
  refine .add (fun _ => by omega) fun _ => .bind (hT.putAt (B.put (by omega)) _) fun T₁ T₁' hT₁ => ?_
  have hs₁ : SameSearch (Entry input.length base base')
      (⟨T₁, s.cur, count, s.forwardBytes, fhash⟩ : Search w N)
      ⟨T₁', s.cur, count, s.forwardBytes, fhash⟩ := ⟨T₁', hT₁, rfl⟩
  cases hc with
  | stale h h' =>
    rw [if_neg (by omega), if_neg (by omega)]
    exact dictProbe_sim hs₁
  | pos p hp =>
    rw [t.wrappingSub_of_le (Nat.le_add_left _ _) (by omega),
      t.wrappingSub_of_le (Nat.le_add_left _ _) (by omega), Nat.add_sub_cancel, Nat.add_sub_cancel]
    refine .ite (and_congr_left fun _ => iff_of_true (Nat.le_add_left _ _) (Nat.le_add_left _ _))
      (fun _ => .assert id fun _ => .bind (probe_sim hs₁) fun x x' hx => ?_) fun _ => dictProbe_sim hs₁
    rcases x with s₂ | r
    · rcases x' with s₂' | r'
      · exact dictProbe_sim hs₁
      · cases hx
    · rcases x' with s₂' | r'
      · cases hx
      · exact .ret hx

theorem dictBlockStep_sim {endPos : Nat} (B : Bases t w input.length base base')
    {s s' : BlockState w N} (hs : SameBlock (Entry input.length base base') room room' s s') :
    Sim (FlowRel (SameBlock (Entry input.length base base') room room')
        (SameResult (Entry input.length base base') room room'))
      (dictBlockStep t input extDict dictTable offset base endPos s)
      (dictBlockStep t input extDict dictTable offset base' endPos s') := by
  obtain ⟨T', o', hT, ho, rfl⟩ := hs
  have hf' := B.fits'
  refine .bind (Sim.loop (SameSearch (Entry input.length base base'))
    (fun _ _ => dictSearchStep_sim B) _ _ _ ⟨T', hT, rfl⟩) fun x x' hx => ?_
  match x, x', hx with
  | .ended T₁, .ended T₁', hT₁ =>
    exact .bind ho.handleLastLiterals fun o₁ o₁' ho₁ => .ret ⟨ho₁, hT₁⟩
  | .found f source c d, .found _ _ _ _, ⟨⟨T₁', hT₁, rfl⟩, rfl, rfl, rfl⟩ =>
    refine .bind (emitMatch_sim hT₁ ho (fun p => B.put) (Nat.le_of_lt hf'))
      fun (T₂, o₁, cur) (T₂', o₁', cur') ⟨hT₂, ho₁, hc⟩ => ?_
    dsimp only at hT₂ ho₁ hc ⊢
    subst hc
    exact .ite Iff.rfl (fun _ => .same fun _ _ => .ret ⟨T₂', o₁', hT₂, ho₁, rfl⟩) fun _ =>
      .ret ⟨T₂', o₁', hT₂, ho₁, rfl⟩

theorem compressBlockWithDictTable_sim (B : Bases t w input.length base base')
    (hT : Alike (Entry input.length base base') T T') (ho : SameWritten room room' o o') :
    Sim (SameResult (Entry input.length base base') room room')
      (compressBlockWithDictTable t input o T dictTable extDict offset base)
      (compressBlockWithDictTable t input o' T' dictTable extDict offset base') := by
  refine .ite Iff.rfl (fun _ => .bind ho.handleLastLiterals fun o₁ o₁' ho₁ => .ret ⟨ho₁, hT⟩)
    fun hshort => .same fun endPos _ => .same fun hash hh => ?_
  have hput := B.put (p := 0) (by have := getHashAt_ret hh; omega)
  rw [Nat.zero_add, Nat.zero_add] at hput
  exact .bind (hT.putAt hput hash) fun T₁ T₁' hT₁ => .same fun fhash _ =>
    Sim.loop (SameBlock (Entry input.length base base') room room')
      (fun _ _ => dictBlockStep_sim B) _ _ _ ⟨T₁', o', hT₁, ho, rfl⟩

/-- The same input, the same block: in a sink with no less room, and whatever
both main tables hold from before. -/
theorem compressWithDictTable_sim {output output' sink : SliceSink} {n : Nat} {T₁ : HashTable w N}
    (B : Bases t w input.length base base') (hu : base' + input.length ≤ U16_MAX)
    (hT : Alike (Entry input.length base base') T T') (hpos : output'.pos ≤ output'.output.length)
    (hroom : output.output.length - output.pos ≤ output'.output.length - output'.pos)
    (h : compressWithDictTable t input output T dictTable extDict offset base =
      .ret (.ok n, sink, T₁)) :
    ∃ sink' T₁', compressWithDictTable t input output' T' dictTable extDict offset base' =
        .ret (.ok n, sink', T₁') ∧ seg sink'.output output'.pos n = seg sink.output output.pos n := by
  have hw := Run.WP_iff.mpr ⟨_, h, Eq.refl (Except.ok n, sink, T₁)⟩
  simp only [compressWithDictTable, Run.WP_bind, Run.WP_assert] at hw
  obtain ⟨hoff, -, hwin, hw⟩ := hw
  obtain ⟨r, hr, hw⟩ := Run.WP_iff.mp hw
  cases r with
  | error e => cases (Prod.mk.inj hw).1
  | ok _ =>
    obtain ⟨x, hx, rfl⟩ := Run.WP_iff.mp hw
    have hsim : ∃ sink' T₁', writeBlock t output' T' input.length (fun rest =>
        compressBlockWithDictTable t input rest T' dictTable extDict offset base') =
          .ret (.ok n, sink', T₁') ∧ Alike (Entry input.length base base') T₁ T₁' ∧
        seg sink'.output output'.pos n = seg sink.output output.pos n :=
      writeBlock_sim hpos hroom (fun o o' ho => compressBlockWithDictTable_sim B hT ho) hx
    obtain ⟨sink', T₁', hrun, -, hseg⟩ := hsim
    refine ⟨sink', T₁', ?_, hseg⟩
    simp only [compressWithDictTable, Run.assert, if_pos hoff, if_pos hu, if_pos hwin, hr,
      Run.ret_bind]
    exact hrun

end

end Lz4rip.Proof.Encode
