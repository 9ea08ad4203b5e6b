import Lz4rip.Framework.Sim
import Lz4rip.Proof.Encode.Hash
import Lz4rip.Proof.Encode.Match

/-!
# What a search carries

Both block loops hash the next position one iteration ahead. What a search keeps
(`Prefetched`) is that the bytes and the hash it carries are those of its position,
and that what the call has put into the table are positions before it, each at the
hash of the bytes there (`Stored`). It is kept whatever the input, the table and the
parameters are, by every iteration that comes to an end: `searchStep_prefetched`,
`matchLoopStep_prefetched` and `dictSearchStep_prefetched`.
-/

namespace Lz4rip.Proof.Encode

open Lz4rip.Impl
open Run (Post FlowAll)

/-! ## What the code returns -/

section

variable {t : Target} {src : List UInt8} {pos limit : Nat}

theorem rd32_post (t : Target) (src : List UInt8) (pos : Nat) :
    Post (rd32 t src pos) fun v => pos + 4 ≤ src.length ∧ v = neNat t (seg src pos 4) := by
  unfold rd32 Run.chunk
  split
  · exact Run.Post_ret.mpr ⟨‹_›, rfl⟩
  · exact Run.Post_panic

theorem rd64_post (t : Target) (src : List UInt8) (pos : Nat) :
    Post (rd64 t src pos) fun v => pos + 8 ≤ src.length ∧ v = neNat t (seg src pos 8) := by
  unfold rd64 Run.chunk
  split
  · exact Run.Post_ret.mpr ⟨‹_›, rfl⟩
  · exact Run.Post_panic

theorem rd64Upto_post (t : Target) (src : List UInt8) (pos limit : Nat) :
    Post (rd64Upto t src pos limit) fun v => rd64 t src pos = .ret v := by
  unfold rd64Upto Run.assert
  split
  · rw [Run.ret_bind, Nat.min_eq_left ‹_›]
    exact fun _ h => h
  · exact Run.Post_panic

theorem getHashAt_of {N v idx : Nat} (hv : rd64 t src pos = .ret v) (hi : hashN t N v = .ret idx) :
    HashTable.getHashAt t N src pos = .ret idx := by
  rw [HashTable.getHashAt, hv, Run.ret_bind, hi]

end

/-! ## What is stored -/

section

variable {w N : Nat} {t : Target} {input : List UInt8} {base pos pos' : Nat} {T₀ T : HashTable w N}

/-- An entry is an old one, or a position before `pos`, at the hash of the bytes
there. -/
def Stored (t : Target) (input : List UInt8) (base : Nat) (T₀ T : HashTable w N) (pos : Nat) : Prop :=
  ∀ i, (h : i < N) → T.dict[i] = T₀.dict[i] ∨
    ∃ p < pos, HashTable.getHashAt t N input p = .ret i ∧ T.dict[i] = BitVec.ofNat w (p + base)

theorem Stored.refl (T : HashTable w N) (pos : Nat) : Stored t input base T T pos :=
  fun _ _ => .inl rfl

theorem Stored.mono (h : Stored t input base T₀ T pos) (hp : pos ≤ pos') :
    Stored t input base T₀ T pos' := fun i hi => by
  obtain heq | ⟨p, hlt, hp', heq⟩ := h i hi
  · exact .inl heq
  · exact .inr ⟨p, by omega, hp', heq⟩

/-- Storing a position at its hash. -/
theorem Stored.putAt {p idx : Nat} (h : Stored t input base T₀ T pos)
    (hidx : HashTable.getHashAt t N input p = .ret idx) (hp : p < pos) :
    Post (T.putAt idx (p + base)) fun T' => Stored t input base T₀ T' pos := by
  unfold HashTable.putAt
  split
  · refine Run.Post_ret.mpr fun i hi => ?_
    simp only [Vector.getElem_set]
    split
    · rename_i heq
      exact .inr ⟨p, hp, heq ▸ hidx, rfl⟩
    · exact h i hi
  · exact Run.Post_panic

theorem Stored.insertAt {p idx : Nat} {readonly : Bool} (h : Stored t input base T₀ T pos)
    (hidx : HashTable.getHashAt t N input p = .ret idx) (hp : p < pos) :
    Post (insertAt t readonly T idx p base) fun T' => Stored t input base T₀ T' pos := by
  unfold Impl.insertAt
  refine .ite (fun _ => Run.Post_ret.mpr h) fun _ => (Post.add t p base).bind fun val hval => ?_
  rw [hval]
  exact h.putAt hidx hp

end

/-! ## Searching -/

section

variable {w N : Nat} {t : Target} {m : Mode} {input extDict source : List UInt8}
  {base endPos literalStart : Nat} {T₀ : HashTable w N}

/-- What a search keeps: what it carries belongs to its position. -/
structure Prefetched (t : Target) (carried : Bool) (input : List UInt8) (base endPos : Nat)
    (T₀ : HashTable w N) (literalStart : Nat) (s : Search w N) : Prop where
  start_le : literalStart ≤ s.cur
  count_ge : 8 ≤ s.nonMatchCount
  bytes : carried → s.cur ≤ endPos → rd64 t input s.cur = .ret s.forwardBytes
  hash : s.cur ≤ endPos → HashTable.getHashAt t N input s.cur = .ret s.forwardHash
  stored : Stored t input base T₀ s.table s.cur

/-- A match of four bytes before the end of the search. -/
structure FourAgree (input source : List UInt8) (endPos literalStart cur candidate : Nat) : Prop where
  start_le : literalStart ≤ cur
  cur_le : cur ≤ endPos
  candidate_le : candidate + 4 ≤ source.length
  agrees : seg input cur 4 = seg source candidate 4

/-- What a search is left with. -/
def LeftWith (t : Target) (input : List UInt8) (base endPos : Nat) (T₀ : HashTable w N)
    (literalStart : Nat) : SearchExit w N → Prop
  | .ended _ => True
  | .found s source candidate _ =>
    FourAgree input source endPos literalStart s.cur candidate ∧
      Stored t input base T₀ s.table (s.cur + 1)

theorem probe_post {near : Bool} {candidate at' from' nextCur : Nat} {curr : Run Nat}
    {s : Search w N} {I : Search w N → Prop} (hstart : literalStart ≤ s.cur) (hle : s.cur ≤ endPos)
    (hlen : s.cur + 4 ≤ input.length) (hcurr : Post curr (· = neNat t (seg input s.cur 4)))
    (hT : Stored t input base T₀ s.table (s.cur + 1)) (hnext : I { s with cur := nextCur }) :
    Post (probe t near source candidate curr at' from' nextCur s)
      (FlowAll I (LeftWith t input base endPos T₀ literalStart)) := by
  unfold probe
  refine (rd32_post t source candidate).bind fun candBytes ⟨hc, hcand⟩ => hcurr.bind fun bytes hb =>
    .ite (fun heq => .then fun _ => .ite (fun _ => .then fun _ => Run.Post_ret.mpr ?_) fun _ => ?_)
      fun _ => ?_
  · have l₁ : (seg source candidate 4).length = 4 := length_seg hc
    have l₂ : (seg input s.cur 4).length = 4 := length_seg hlen
    refine ⟨⟨hstart, hle, hc, (neNat_inj t (l₁.trans l₂.symm) ?_).symm⟩, hT⟩
    rw [← hcand, ← hb, heq]
  · exact Run.Post_ret.mpr hnext
  · exact Run.Post_ret.mpr hnext

/-- The four bytes at a position are the ones carried, or read there. -/
theorem currBytes_post {cur nextCur bytes : Nat} (hle : cur ≤ nextCur)
    (hb : rd64 t input cur = .ret bytes) :
    Post (currBytes t m input cur nextCur bytes) (· = neNat t (seg input cur 4)) := by
  obtain ⟨hlen, rfl⟩ := rd64_post t input cur bytes hb
  unfold currBytes
  refine .ite (fun _ => ?_) fun _ => ?_
  · rw [Nat.min_eq_left hle]
    exact (rd32_post t input cur).mono fun _ h => h.2
  · exact Run.Post_ret.mpr (first4_neNat t hlen)

theorem Prefetched.index {s : Search w N} (h : Prefetched t true input base endPos T₀ literalStart s)
    (hle : s.cur ≤ endPos) {idx : Nat} (hidx : s.hash t m = .ret idx) :
    HashTable.getHashAt t N input s.cur = .ret idx := by
  unfold Search.hash at hidx
  split at hidx
  · rw [← hidx]
    exact h.hash hle
  · exact getHashAt_of (h.bytes rfl hle) hidx

theorem searchStep_prefetched {extOff : Nat} {s : Search w N}
    (h : Prefetched t true input base endPos T₀ literalStart s) :
    Post (searchStep t m input extDict base extOff endPos s)
      (FlowAll (Prefetched t true input base endPos T₀ literalStart)
        (LeftWith t input base endPos T₀ literalStart)) := by
  have hge := h.count_ge
  simp only [searchStep, INCREASE_STEPSIZE_BITSHIFT, Nat.reducePow]
  refine (Post.add t _ _).bind fun count hcount => (Post.add t _ _).bind fun nextCur hnext =>
    .ite (fun _ => Run.Post_ret.mpr trivial) fun hgo => ?_
  have hle : s.cur ≤ endPos := by omega
  have hlt : s.cur < nextCur := by omega
  have hbytes := h.bytes rfl hle
  have hlen := (rd64_post t input s.cur _ hbytes).1
  refine .same fun idx hidx => .then fun candidate => .same fun bytes hb => .same fun hash hh =>
    ((h.stored.mono (Nat.le_succ _)).insertAt (h.index hle hidx) (Nat.lt_succ_self _)).bind
    fun T hT => .then fun _ => ?_
  have hs' : Prefetched t true input base endPos T₀ literalStart
      (⟨T, nextCur, count, bytes, hash⟩ : Search w N) :=
    ⟨Nat.le_trans h.start_le (Nat.le_of_lt hlt), by dsimp only; omega, fun _ _ => hb,
      fun _ => getHashAt_of hb hh, hT.mono hlt⟩
  have hprobe : ∀ {near : Bool} {source : List UInt8} {candidate at' from' : Nat},
      Post (probe t near source candidate (currBytes t m input s.cur nextCur s.forwardBytes) at' from'
        nextCur (⟨T, s.cur, count, bytes, hash⟩ : Search w N))
        (FlowAll (Prefetched t true input base endPos T₀ literalStart)
          (LeftWith t input base endPos T₀ literalStart)) :=
    probe_post h.start_le hle (by dsimp only; omega) (currBytes_post (Nat.le_of_lt hlt) hbytes) hT hs'
  refine .ite (fun _ => .ite (fun _ => Run.Post_ret.mpr hs') fun _ => .then fun _ => .then fun _ =>
    .then fun _ => hprobe) fun _ => .then fun _ => .ite (fun _ => hprobe) fun _ =>
    .ite (fun _ => hprobe) fun _ => Run.Post_ret.mpr hs'

end

/-! ## Matches -/

section

variable {w N : Nat} {t : Target} {m : Mode} {input extDict source : List UInt8}
  {base endPos literalStart cur candidate offset : Nat} {T₀ T : HashTable w N} {rest : Rest}

/-- A match ends behind the position it was found at, and its last position but one
is stored at its hash. -/
theorem emitMatch_post {readonly : Bool} (hend : endPos + MFLIMIT ≤ input.length)
    (h : FourAgree input source endPos literalStart cur candidate)
    (hT : Stored t input base T₀ T (cur + 1)) :
    Post (emitMatch t readonly base input source T rest literalStart cur candidate offset)
      fun (T', _, cur') => cur < cur' ∧ Stored t input base T₀ T' cur' := by
  have hle := h.cur_le
  unfold emitMatch
  refine (extendMatch_ok t h.start_le (by omega) h.candidate_le h.agrees).post.bind
    fun ⟨c, d⟩ ⟨⟨h₁, h₂, h₃⟩, hcount⟩ => .then fun litLen => hcount.post.bind
    fun ⟨n, cur'⟩ ⟨hc, hlong, _⟩ => .then fun limit => (Post.sub cur' 2).bind fun at' ⟨hat, _⟩ =>
    (rd64Upto_post t input at' limit).bind fun bytes hb =>
    .same fun hash hh => ?_
  have hlt : cur < cur' := by omega
  have hpos : at' < cur' := by omega
  refine ((hT.mono hlt).insertAt (getHashAt_of hb hh) hpos).bind fun T' hT' => .then fun rest' =>
    Run.Post_ret.mpr ⟨hlt, hT'⟩

/-- The state of the block loop between two searches, as the next search finds
it. -/
def searchStart (b : BlockState w N) : Search w N :=
  ⟨b.table, b.cur, 2 ^ INCREASE_STEPSIZE_BITSHIFT, b.forwardBytes, b.forwardHash⟩

/-- A match to write, where it was found. -/
def Matched (t : Target) (input : List UInt8) (base endPos : Nat) (T₀ : HashTable w N)
    (s : MatchState w N) : Prop :=
  FourAgree input s.source endPos s.block.literalStart s.block.cur s.candidate ∧
    Stored t input base T₀ s.block.table (s.block.cur + 1)

/-- Where a match ends, the next search starts with its bytes and their hash, if
there is a next search. -/
theorem prefetched_after {carried : Bool} {bytes hash : Nat} (hT : Stored t input base T₀ T cur)
    (hb : carried → cur ≤ endPos → rd64 t input cur = .ret bytes)
    (hh : cur ≤ endPos → HashTable.getHashAt t N input cur = .ret hash) :
    Prefetched t carried input base endPos T₀ cur
      (searchStart ⟨T, rest, cur, cur, bytes, hash⟩) :=
  ⟨Nat.le_refl _, Nat.le_refl _, hb, hh, hT⟩

theorem matchLoopStep_prefetched (hend : endPos + MFLIMIT ≤ input.length) {s : MatchState w N}
    (h : Matched t input base endPos T₀ s) :
    Post (matchLoopStep t m input base endPos s) (FlowAll (Matched t input base endPos T₀) fun b =>
      Prefetched t true input base endPos T₀ b.literalStart (searchStart b)) := by
  unfold matchLoopStep
  refine (emitMatch_post hend h.1 h.2).bind fun ⟨T, rest, cur⟩ ⟨_, hT⟩ => ?_
  have hdone : ∀ bytes hash, rd64 t input cur = .ret bytes → hashN t N bytes = .ret hash →
      Prefetched t true input base endPos T₀ cur
        (searchStart ⟨T, rest, cur, cur, bytes, hash⟩) := fun bytes hash hb hh =>
    prefetched_after hT (fun _ _ => hb) fun _ => getHashAt_of hb hh
  refine .ite (fun hm => ?_) fun _ => .ite (fun hle => ?_) fun hgt => ?_
  · -- Another match right after this one, or not.
    refine .same fun bytes hb => .same fun hash hh => .then fun rematch => ?_
    dsimp only
    unfold isRematch
    by_cases hrc : t.wrappingSub rematch base < cur
    · rw [if_pos hrc]
      refine Post.bind (P := fun r => r = true →
          t.wrappingSub rematch base + 4 ≤ input.length ∧
            seg input cur 4 = seg input (t.wrappingSub rematch base) 4) ?_ fun r hr =>
        .ite (fun hr' => (Post.add t _ _).bind fun val hval => ?_) fun _ => ?_
      · refine (rd32_post t input _).bind fun v ⟨hv, hv'⟩ => .ite (fun heq => fun r _ _ => ?_)
          fun _ => Run.Post_ret.mpr fun h => absurd h Bool.false_ne_true
        obtain ⟨hlen, rfl⟩ := rd64_post t input cur bytes hb
        rw [first4_neNat t hlen, hv'] at heq
        have l₁ : (seg input cur 4).length = 4 := length_seg (by omega)
        have l₂ : (seg input (t.wrappingSub rematch base) 4).length = 4 := length_seg hv
        exact ⟨hv, neNat_inj t (l₁.trans l₂.symm) heq⟩
      · rw [hval]
        exact ((hT.mono (Nat.le_succ _)).putAt (getHashAt_of hb hh) (Nat.lt_succ_self _)).bind
          fun T' hT' => .then fun _ => Run.Post_ret.mpr
            ⟨⟨Nat.le_refl _, hm.2, (hr hr').1, (hr hr').2⟩, hT'⟩
      · exact Run.Post_ret.mpr (hdone bytes hash hb hh)
    · rw [if_neg hrc, Run.pure_eq, Run.ret_bind, if_neg Bool.false_ne_true]
      exact Run.Post_ret.mpr (hdone bytes hash hb hh)
  · exact .same fun bytes hb => .same fun hash hh =>
      Run.Post_ret.mpr (hdone bytes hash hb hh)
  · exact Run.Post_ret.mpr (prefetched_after hT (fun _ hle => absurd hle hgt)
      fun hle => absurd hle hgt)

/-- A search goes on to the end of the block, or to a match. -/
theorem search_post {extOff n : Nat} {b : BlockState w N}
    (h : Prefetched t true input base endPos T₀ b.literalStart (searchStart b)) :
    Post (Run.loop (searchStep t m input extDict base extOff endPos) n (searchStart b))
      (LeftWith t input base endPos T₀ b.literalStart) :=
  Post.loop _ (fun _ => searchStep_prefetched) n _ h

/-- The match that a search has found, with the state of the block loop. -/
def matchStart (b : BlockState w N) (f : Search w N) (source : List UInt8)
    (candidate offset : Nat) : MatchState w N :=
  ⟨⟨f.table, b.rest, b.literalStart, f.cur, f.forwardBytes, f.forwardHash⟩, source, candidate, offset⟩

theorem blockStep_prefetched {extOff : Nat} (hend : endPos + MFLIMIT ≤ input.length)
    {b : BlockState w N}
    (h : Prefetched t true input base endPos T₀ b.literalStart (searchStart b)) :
    Post (blockStep t m input extDict base extOff endPos b) (FlowAll (fun b' =>
      Prefetched t true input base endPos T₀ b'.literalStart (searchStart b')) fun _ => True) := by
  unfold blockStep
  refine (search_post h).bind fun exit hexit => ?_
  cases exit with
  | ended T => exact .then fun _ => Run.Post_ret.mpr trivial
  | found f source candidate offset =>
    have hm : Matched t input base endPos T₀ (matchStart b f source candidate offset) := hexit
    exact (Post.loop _ (fun _ => matchLoopStep_prefetched hend) (input.length + 1) _ hm).bind
      fun b' hb' => Run.Post_ret.mpr hb'

end

/-! ## With the dictionary's table -/

section

variable {w N : Nat} {t : Target} {input extDict : List UInt8}
  {offset base endPos literalStart : Nat} {T₀ dictTable : HashTable w N}

theorem dictSearchStep_prefetched {s : Search w N}
    (h : Prefetched t false input base endPos T₀ literalStart s) :
    Post (dictSearchStep t input extDict dictTable offset base endPos s)
      (FlowAll (Prefetched t false input base endPos T₀ literalStart)
        (LeftWith t input base endPos T₀ literalStart)) := by
  have hge := h.count_ge
  simp only [dictSearchStep, INCREASE_STEPSIZE_BITSHIFT, Nat.reducePow]
  refine (Post.add t _ _).bind fun count hcount => (Post.add t _ _).bind fun nextCur hnext =>
    .ite (fun _ => Run.Post_ret.mpr trivial) fun hgo => ?_
  have hle : s.cur ≤ endPos := by omega
  have hlt : s.cur < nextCur := by omega
  have hidx := h.hash hle
  refine .same fun hash hh => .then fun candidate => (Post.add t _ _).bind fun val hval => ?_
  rw [hval]
  refine ((h.stored.mono (Nat.le_succ _)).putAt hidx (Nat.lt_succ_self _)).bind fun T hT => ?_
  have hs' : Prefetched t false input base endPos T₀ literalStart
      (⟨T, nextCur, count, s.forwardBytes, hash⟩ : Search w N) :=
    ⟨Nat.le_trans h.start_le (Nat.le_of_lt hlt), by dsimp only; omega,
      fun hc => absurd hc Bool.false_ne_true, fun _ => hh, hT.mono hlt⟩
  have hlen : s.cur + 4 ≤ input.length := by
    rw [HashTable.getHashAt] at hidx
    obtain ⟨v, hv, -⟩ := Run.bind_eq_ret.mp hidx
    have := (rd64_post t input s.cur v hv).1
    omega
  have hprobe : ∀ {source : List UInt8} {candidate at' from' : Nat},
      Post (probe t true source candidate (rd32 t input (min s.cur nextCur)) at' from' nextCur
        (⟨T, s.cur, count, s.forwardBytes, hash⟩ : Search w N))
        (FlowAll (Prefetched t false input base endPos T₀ literalStart)
          (LeftWith t input base endPos T₀ literalStart)) := by
    rw [Nat.min_eq_left (Nat.le_of_lt hlt)]
    exact probe_post h.start_le hle hlen ((rd32_post t input s.cur).mono fun _ h => h.2) hT hs'
  have hdict : Post (dictProbe t input extDict dictTable offset s.forwardHash nextCur
      (⟨T, s.cur, count, s.forwardBytes, hash⟩ : Search w N))
      (FlowAll (Prefetched t false input base endPos T₀ literalStart)
        (LeftWith t input base endPos T₀ literalStart)) := by
    unfold dictProbe
    exact .then fun _ => .ite (fun _ => .then fun _ => .then fun _ => hprobe) fun _ =>
      Run.Post_ret.mpr hs'
  refine .ite (fun _ => .then fun _ => hprobe.bind fun x hx => ?_) fun _ => hdict
  cases x with
  | next _ => exact hdict
  | done e => exact Run.Post_ret.mpr hx

theorem dictBlockStep_prefetched (hend : endPos + MFLIMIT ≤ input.length) {b : BlockState w N}
    (h : Prefetched t false input base endPos T₀ b.literalStart (searchStart b)) :
    Post (dictBlockStep t input extDict dictTable offset base endPos b) (FlowAll (fun b' =>
      Prefetched t false input base endPos T₀ b'.literalStart (searchStart b')) fun _ => True) := by
  unfold dictBlockStep
  have hloop : Post (Run.loop (dictSearchStep t input extDict dictTable offset base endPos)
      (input.length + 1) (searchStart b)) (LeftWith t input base endPos T₀ b.literalStart) :=
    Post.loop _ (fun _ => dictSearchStep_prefetched) _ _ h
  refine hloop.bind fun exit hexit => ?_
  cases exit with
  | ended T => exact .then fun _ => Run.Post_ret.mpr trivial
  | found f source candidate offset =>
    refine (emitMatch_post hend hexit.1 hexit.2).bind fun ⟨T, rest, cur⟩ ⟨_, hT⟩ =>
      .ite (fun _ => .same fun hash hh => Run.Post_ret.mpr ?_) fun hgt => Run.Post_ret.mpr ?_
    · exact prefetched_after hT (fun hc => absurd hc Bool.false_ne_true) fun _ => hh
    · exact prefetched_after hT (fun hc => absurd hc Bool.false_ne_true) fun hle => absurd hle hgt

end

/-! ## The first search -/

section

variable {w N : Nat} {t : Target} {m : Mode} {input : List UInt8} {base endPos inputPos : Nat}
  {T₀ T : HashTable w N} {rest : Rest}

/-- Where the first search of a block starts. -/
def firstPos (inputPos base : Nat) : Nat := if decide (inputPos = 0 ∧ base = 0) then 1 else inputPos

theorem insertFirst_post {readonly : Bool} :
    Post (insertFirst t readonly (decide (inputPos = 0 ∧ base = 0)) input T₀) fun T =>
      Stored t input base T₀ T (firstPos inputPos base) := by
  unfold insertFirst firstPos
  refine .ite (fun hs => .same fun idx hidx => ?_) fun _ => Run.Post_ret.mpr (Stored.refl T₀ _)
  obtain ⟨-, rfl⟩ := of_decide_eq_true hs
  rw [if_pos hs]
  exact (Stored.refl T₀ 1).insertAt hidx Nat.one_pos

theorem first_prefetched {bytes hash : Nat} (hT : Stored t input base T₀ T (firstPos inputPos base))
    (hb : rd64 t input (firstPos inputPos base) = .ret bytes) (hh : hashN t N bytes = .ret hash) :
    Prefetched t true input base endPos T₀ inputPos
      (searchStart ⟨T, rest, inputPos, firstPos inputPos base, bytes, hash⟩) := by
  refine ⟨?_, Nat.le_refl _, fun _ _ => hb, fun _ => getHashAt_of hb hh, hT⟩
  dsimp only [searchStart, firstPos]
  split
  · have := of_decide_eq_true ‹_›
    omega
  · exact Nat.le_refl _

/-- Where a search goes on, it is not at the end of the block. -/
theorem Prefetched.cur_le {carried : Bool} {literalStart : Nat} {s : Search w N}
    (h : Prefetched t carried input base endPos T₀ literalStart s)
    (hgo : ¬ s.cur + s.nonMatchCount / 2 ^ INCREASE_STEPSIZE_BITSHIFT > endPos + 1) :
    s.cur ≤ endPos := by
  have := h.count_ge
  simp only [INCREASE_STEPSIZE_BITSHIFT, Nat.reducePow] at hgo
  omega

end

end Lz4rip.Proof.Encode
