import Lz4rip.Proof.Encode.Emit

/-!
# Matches

The text of a block is the dictionary and the input, `extDict ++ input`. A
`Candidate` is what a search finds: a position of the input or the dictionary
that is at most 65535 bytes back and agrees on four bytes. `emitMatch_ok` says
that both block loops make of it a sequence that spells the text
(`Lz77.Sequence.Spells`), in either direction as far as the bytes agree.
-/

namespace Lz4rip.Proof.Encode

open Lz4rip.Impl
open Spec (sequenceBytes Encodable)

/-- `source` is the input or the dictionary, which starts at `k` of the
text. -/
inductive Source (extDict input : List UInt8) : List UInt8 → Nat → Prop
  | input : Source extDict input input extDict.length
  | dict : Source extDict input extDict 0

theorem Source.getElem? {extDict input source : List UInt8} {k i : Nat}
    (h : Source extDict input source k) (hi : i < source.length) :
    (extDict ++ input)[k + i]? = source[i]? := by
  cases h with
  | input => rw [List.getElem?_append_right (Nat.le_add_right _ _), Nat.add_sub_cancel_left]
  | dict => rw [Nat.zero_add, List.getElem?_append_left hi]

/-- The `n` bytes of `source` at `candidate` are those of the input at `cur`,
and lie `offset` before them in the text. -/
structure Candidate (extDict input source : List UInt8) (cur candidate offset n : Nat) : Prop where
  origin : ∃ k, Source extDict input source k ∧ k + candidate + offset = extDict.length + cur
  offset_pos : 0 < offset
  offset_le : offset ≤ MAX_DISTANCE
  cur_le : cur + n ≤ input.length
  candidate_le : candidate + n ≤ source.length
  agrees : seg input cur n = seg source candidate n

namespace Candidate

variable {extDict input source : List UInt8} {cur candidate offset n : Nat}

/-- What agrees goes on with period `offset` in the text. -/
theorem spells (h : Candidate extDict input source cur candidate offset n) {start : Nat}
    (hs : start ≤ cur) :
    Lz77.Sequence.Spells ⟨seg input start (cur - start), offset, n⟩ (extDict ++ input)
      (extDict.length + start) := by
  obtain ⟨k, hk, hd⟩ := h.origin
  have hc := h.cur_le
  have hc' := h.candidate_le
  have hl : (seg input start (cur - start)).length = cur - start := length_seg (by omega)
  refine ⟨?_, h.offset_pos, ?_, ?_, fun i hi => ?_⟩
  · dsimp only
    rw [hl, seg_append_right]
  · dsimp only
    omega
  · rw [List.length_append, Lz77.Sequence.size]
    dsimp only
    omega
  · dsimp only at hi ⊢
    rw [hl, show extDict.length + start + (cur - start) + i = extDict.length + (cur + i) by omega,
      List.getElem?_append_right (Nat.le_add_right _ _), Nat.add_sub_cancel_left,
      show extDict.length + (cur + i) - offset = k + (candidate + i) by omega,
      hk.getElem? (by omega), ← getElem?_seg_of_lt input hi, h.agrees, getElem?_seg_of_lt source hi]

end Candidate

/-! ## Extending a match -/

/-- Going back keeps to bytes that agree. -/
theorem backtrackMatch_ok {input source : List UInt8} {cur literalStart candidate : Nat}
    (hs : literalStart ≤ cur) (hc : cur ≤ input.length) (hc' : candidate ≤ source.length) :
    (backtrackMatch input cur literalStart source candidate).WP fun (c, d) =>
      literalStart ≤ c ∧ c ≤ cur ∧ d + (cur - c) = candidate ∧
        seg input c (cur - c) = seg source d (cur - c) := by
  refine Run.WP.loop (fun s => literalStart ≤ s.1 ∧ s.1 ≤ cur ∧ s.2 + (cur - s.1) = candidate ∧
      seg input s.1 (cur - s.1) = seg source s.2 (cur - s.1)) (fun s => s.1) (fun s hI => ?_) _ _
    ⟨hs, Nat.le_refl _, by omega, by rw [Nat.sub_self, seg_zero, seg_zero]⟩ (Nat.lt_succ_self _)
  obtain ⟨c, d⟩ := s
  obtain ⟨h₁, h₂, h₃, h₄⟩ := hI
  dsimp only at h₁ h₂ h₃ h₄
  unfold backtrackLoop
  refine .ite (fun hb => ?_) fun _ => ⟨h₁, h₂, h₃, h₄⟩
  have hi : c - 1 < input.length := by omega
  have hj : d - 1 < source.length := by omega
  rw [Run.index_eq hi, Run.index_eq hj]
  rw [Run.ret_bind, Run.ret_bind]
  split
  · rename_i heq
    refine ⟨⟨by omega, by omega, by dsimp only; omega, ?_⟩, by dsimp only; omega⟩
    have e : cur - (c - 1) = 1 + (cur - c) := by omega
    dsimp only
    rw [e, ← seg_append_seg, ← seg_append_seg, seg_one hi, seg_one hj, heq,
      show c - 1 + 1 = c by omega, show d - 1 + 1 = d by omega, h₄]
  · exact ⟨h₁, h₂, h₃, h₄⟩

/-- A match of four bytes, extended back as far as the literals allow and then
forward, goes on at least to where the four bytes are. -/
theorem extendMatch_ok (t : Target) {input source : List UInt8} {literalStart cur candidate : Nat}
    (hs : literalStart ≤ cur) (he : cur + MFLIMIT ≤ input.length)
    (hc : candidate + 4 ≤ source.length) (h4 : seg input cur 4 = seg source candidate 4) :
    (backtrackMatch input cur literalStart source candidate).WP fun (c, d) =>
      (literalStart ≤ c ∧ c ≤ cur ∧ d + (cur - c) = candidate) ∧
        (countSameBytes t input (c + MINMATCH) source (d + MINMATCH) END_OFFSET).WP
          fun (n, cur') => cur' = c + 4 + n ∧ cur - c ≤ n ∧ cur' + 6 ≤ input.length ∧
            d + 4 + n ≤ source.length ∧ seg input c (4 + n) = seg source d (4 + n) := by
  simp only [MFLIMIT] at he
  refine (backtrackMatch_ok hs (by omega) (by omega)).mono fun ⟨c, d⟩ ⟨h₁, h₂, h₃, h₄⟩ => ?_
  dsimp only at h₁ h₂ h₃ h₄ ⊢
  simp only [MINMATCH, END_OFFSET, LAST_LITERALS, Nat.reduceAdd]
  refine ⟨⟨h₁, h₂, h₃⟩, (countSameBytes_ok t (by omega) (by omega) (by omega)).mono
    fun ⟨n, c'⟩ ⟨hn, hc'⟩ => ?_⟩
  dsimp only at hn hc' ⊢
  -- What the counter counts agrees, and so does all of the match.
  have hle := commonPrefix_le (seg input (c + 4) (input.length - 6 - (c + 4))) (source.drop (d + 4))
  have htk := take_commonPrefix (seg input (c + 4) (input.length - 6 - (c + 4))) (source.drop (d + 4))
  rw [← hn, length_seg (by omega), List.length_drop] at hle
  rw [← hn, take_seg _ (by omega)] at htk
  have hfour : seg input c (cur - c + 4) = seg source d (cur - c + 4) := by
    rw [← seg_append_seg, ← seg_append_seg, h₄, show c + (cur - c) = cur by omega,
      show d + (cur - c) = candidate by omega, h4]
  have hlong : cur - c ≤ n := by
    rw [hn]
    refine le_commonPrefix (by rw [length_seg (by omega)]; omega) (by rw [List.length_drop]; omega)
      ?_
    have := congrArg (List.drop 4) hfour
    rw [drop_seg, drop_seg, Nat.add_sub_cancel] at this
    rw [take_seg _ (by omega)]
    exact this
  refine ⟨hc', hlong, by omega, by omega, ?_⟩
  have := congrArg (List.take 4) hfour
  rw [take_seg _ (by omega), take_seg _ (by omega)] at this
  rw [← seg_append_seg, ← seg_append_seg, this]
  exact congrArg _ htk

/-! ## Writing a match -/

section

variable {w N : Nat} {t : Target} {readonly : Bool} {base : Nat} {extDict input source : List UInt8}
  {table : HashTable w N} {rest : Rest} {literalStart cur candidate offset : Nat}

/-- What `emitMatch` does: it writes a sequence that spells the text from the
literals on, and goes on where the match ends. -/
structure Emitted (readonly : Bool) (extDict input : List UInt8) (base : Nat) (rest : Rest)
    (literalStart cur : Nat)    (s : Spec.Sequence) (table' : HashTable w N) (rest' : Rest) (cur' : Nat) : Prop where
  puts : Puts rest (sequenceBytes s) rest'
  spells : s.Spells (extDict ++ input) (extDict.length + literalStart)
  size : literalStart + s.size = cur'
  matchLen : 4 ≤ s.matchLen
  offset_le : s.offset ≤ MAX_DISTANCE
  start_le : literalStart + s.literals.length + MFLIMIT ≤ input.length
  cur_lt : cur < cur'
  cur_le : cur' + 6 ≤ input.length
  below : Bounded readonly table' (base + cur')

theorem insertAt_ok {hash pos b : Nat} (ht : Bounded readonly table b) (hh : hash < N) (hp : pos + base < b)
    (hm : pos + base < t.modulus) :
    (insertAt t readonly table hash pos base).WP (Bounded readonly · b) := by
  refine .ite (fun _ => ht) fun hr => ?_
  rw [Run.WP_bind, Target.WP_add]
  exact ⟨hm, (putAt_ok (ht (Bool.not_eq_true _ ▸ hr)) hh hp).mono fun _ h _ => h⟩

theorem emitMatch_ok (hN : ValidEntries t N)
    (h : Candidate extDict input source cur candidate offset 4) (hs : literalStart ≤ cur)
    (he : cur + MFLIMIT ≤ input.length) (hb : base + input.length ≤ t.modulus)
    (ht : Bounded readonly table (base + cur + 1))
    (hr : input.length - literalStart + (input.length - literalStart) / 255 ≤ rest.rest.length) :
    (emitMatch t readonly base input source table rest literalStart cur candidate offset).WP
      fun (table', rest', cur') =>
        ∃ s, Emitted readonly extDict input base rest literalStart cur s table' rest' cur' := by
  have ho := h.offset_pos
  obtain ⟨k, hk, hd⟩ := h.origin
  rw [emitMatch, Run.WP_bind]
  refine (extendMatch_ok t hs he h.candidate_le h.agrees).mono fun ⟨c, d⟩ ⟨⟨h₁, h₂, h₃⟩, hcount⟩ => ?_
  simp only [MFLIMIT] at he
  dsimp only at h₁ h₂ h₃ hcount ⊢
  simp only [Run.WP_bind, Run.WP_sub]
  refine ⟨h₁, hcount.mono fun ⟨n, c'⟩ ⟨hc, hlong, hcur', hcand', hag⟩ => ?_⟩
  dsimp only at hc hlong hcur' hcand' hag ⊢
  subst hc
  have hcand : Candidate extDict input source c d offset (4 + n) :=
    ⟨⟨k, hk, by omega⟩, ho, h.offset_le, by omega, by omega, hag⟩
  have hl : (seg input literalStart (c - literalStart)).length = c - literalStart :=
    length_seg (by omega)
  have hsp := hcand.spells h₁
  have hlen := length_sequenceBytes_le
    (s := ⟨seg input literalStart (c - literalStart), offset, 4 + n⟩) (Nat.le_add_right 4 n)
  simp only [Lz77.Sequence.size, hl] at hlen
  refine ⟨by omega, by omega, (rd64Upto_ok t (by omega) (by omega)).mono fun bytes _ =>
    (hashN_ok hN bytes).mono fun hash hh => ?_⟩
  have hb' : base + cur + 1 ≤ base + (c + 4 + n) := by omega
  refine (insertAt_ok (ht.mono hb') hh (by omega) (by omega)).mono fun table' ht' =>
    (emitSequence_ok (by omega) (by omega)).mono fun rest' hp => ?_
  rw [Run.pure_eq, Run.WP_ret]
  dsimp only
  refine ⟨_, hp, hsp, ?_, Nat.le_add_right 4 n, h.offset_le, ?_, by omega, by omega, ht'⟩
  · rw [Lz77.Sequence.size]
    dsimp only
    omega
  · simp only [hl, MFLIMIT]
    omega

end

end Lz4rip.Proof.Encode
