import Lz4rip.Impl.Encode.Compress

/-!
# Words, hashes and tables of the encoder

`countSameBytes_ok`: the match counter counts the longest common prefix.
`hashN_ok`: a hash is an index into a table of a permitted size. Of a table,
the encoder needs no more than a bound on its entries (`HashTable.Below`),
which `getAt_ok` uses and `putAt_ok` keeps.
-/

namespace Lz4rip.Proof.Encode

open Lz4rip.Impl

/-! ## Counting -/

/-- A word of `k` bytes from the front of both sides. -/
theorem commonPrefix_word (t : Target) {a b : List UInt8} (k : Nat) (ha : k ≤ a.length)
    (hb : k ≤ b.length) :
    commonPrefix a b =
      if neNat t (a.take k) ^^^ neNat t (b.take k) ≠ 0 then
        trailingZeros (8 * k) (toLe t k (neNat t (a.take k) ^^^ neNat t (b.take k))) / 8
      else k + commonPrefix (a.drop k) (b.drop k) := by
  have hla : (a.take k).length = k := by rw [List.length_take]; omega
  have hlb : (b.take k).length = k := by rw [List.length_take]; omega
  have hl : (a.take k).length = (b.take k).length := hla.trans hlb.symm
  conv_lhs => rw [← List.take_append_drop k a, ← List.take_append_drop k b]
  by_cases h : a.take k = b.take k
  · rw [if_neg (not_not.mpr ((xor_eq_zero_iff t hl).mpr h)), commonPrefix_append _ _ h, hla]
  · have := trailingZeros_xor t hl h
    rw [hla] at this
    rw [if_pos (mt (xor_eq_zero_iff t hl).mp h), commonPrefix_append_ne _ _ hl h, this]

theorem countChunks_spec (t : Target) : ∀ (k : Nat) (a b : List UInt8), 8 * k ≤ a.length →
    8 * k ≤ b.length →
    commonPrefix a b = if (countChunks t k a b).2 then (countChunks t k a b).1
      else (countChunks t k a b).1 + commonPrefix (a.drop (k * 8)) (b.drop (k * 8))
  | 0, a, b, _, _ => by
    simp only [countChunks, Bool.false_eq_true, if_false, Nat.zero_mul, List.drop_zero,
      Nat.zero_add]
  | k + 1, a, b, ha, hb => by
    rw [commonPrefix_word t 8 (by omega) (by omega), countChunks]
    dsimp only
    split
    · simp only [if_true, Nat.reduceMul]
    · rw [countChunks_spec t k (a.drop 8) (b.drop 8) (by rw [List.length_drop]; omega)
        (by rw [List.length_drop]; omega), List.drop_drop, List.drop_drop]
      dsimp only
      rw [show 8 + k * 8 = (k + 1) * 8 by omega]
      split
      · rfl
      · rw [Nat.add_assoc]

theorem countTail1_spec : ∀ {a b : List UInt8}, a.length = b.length → a.length < 2 →
    countTail1 a b = commonPrefix a b
  | [], [], _, _ => rfl
  | [x], [y], _, _ => by
    rw [countTail1, commonPrefix]
    rfl

theorem exists_cons_cons {l : List UInt8} (h : 2 ≤ l.length) : ∃ x y r, l = x :: y :: r := by
  cases l with
  | nil => cases h
  | cons x l =>
    cases l with
    | nil => exact absurd h (by simp)
    | cons y r => exact ⟨x, y, r, rfl⟩

theorem countTail2_spec {a b : List UInt8} (hl : a.length = b.length) (h : a.length < 4) :
    countTail2 a b = commonPrefix a b := by
  unfold countTail2
  split
  · rename_i h2
    have he := h2.2
    have : (a.take 2).length = 2 := by rw [List.length_take]; omega
    conv_rhs => rw [← List.take_append_drop 2 a, ← List.take_append_drop 2 b,
      commonPrefix_append _ _ he, this]
    rw [countTail1_spec (by rw [List.length_drop, List.length_drop]; omega)
      (by rw [List.length_drop]; omega)]
  · rename_i h2
    by_cases h1 : a.length < 2
    · exact countTail1_spec hl h1
    · obtain ⟨x, x', a, rfl⟩ := exists_cons_cons (Nat.not_lt.mp h1)
      obtain ⟨y, y', b, rfl⟩ := exists_cons_cons (hl ▸ Nat.not_lt.mp h1)
      have hne : [x, x'] ≠ [y, y'] := fun he => h2 ⟨⟨by simp, by simp⟩, he⟩
      rw [countTail1, commonPrefix]
      split
      · rename_i hxy
        have : x' ≠ y' := fun he => hne (by rw [hxy, he])
        rw [commonPrefix, if_neg this]
      · rfl

theorem countTail4_spec (t : Target) {a b : List UInt8} (hl : a.length = b.length)
    (h : a.length < 8) : countTail4 t a b = commonPrefix a b := by
  unfold countTail4
  split
  · rw [commonPrefix_word t 4 (by omega) (by omega)]
    dsimp only
    split
    · rfl
    · rw [countTail2_spec (by rw [List.length_drop, List.length_drop]; omega)
        (by rw [List.length_drop]; omega)]
  · exact countTail2_spec hl (by omega)

theorem countSameBytesLong_spec (t : Target) (a b : List UInt8) :
    countSameBytesLong t a b = commonPrefix a b := by
  unfold countSameBytesLong
  have hla : (a.take (min a.length b.length)).length = min a.length b.length := by
    rw [List.length_take]
    omega
  have hlb : (b.take (min a.length b.length)).length = min a.length b.length := by
    rw [List.length_take]
    omega
  rw [← commonPrefix_take _ a b rfl, countChunks_spec t (min a.length b.length / 8) _ _ (by omega)
    (by omega)]
  dsimp only
  split
  · rfl
  · rw [countTail4_spec t (by rw [List.length_drop, List.length_drop, hla, hlb])
      (by rw [List.length_drop, hla]; omega)]

/-- The match counter counts the longest common prefix. -/
theorem countSameBytes_ok (t : Target) {input source : List UInt8} {cur candidate e : Nat}
    (he : e ≤ input.length) (hcur : cur ≤ input.length - e) (hcand : candidate ≤ source.length) :
    (countSameBytes t input cur source candidate e).WP fun (num, cur') =>
      num = commonPrefix (seg input cur (input.length - e - cur)) (source.drop candidate) ∧
        cur' = cur + num := by
  simp only [countSameBytes, Run.WP_bind, Run.WP_sub, Run.WP_assert, Run.pure_eq, Run.WP_ret,
    and_true]
  refine ⟨he, hcur, hcand, ?_⟩
  split
  · rename_i h8
    rw [commonPrefix_word t 8 h8.1 h8.2, countSameBytesLong_spec]
  · exact countSameBytesLong_spec t _ _

/-- The match counter returns the longest common prefix and the position past
it, whatever the source is: the input itself, too. -/
theorem countSameBytes_longest (t : Target) {input source : List UInt8}
    {cur candidate endOffset : Nat} (hcur : cur + endOffset ≤ input.length)
    (hcand : candidate ≤ source.length) :
    ∃ n, countSameBytes t input cur source candidate endOffset = .ret (n, cur + n) ∧
      LongestPrefix (seg input cur (input.length - endOffset - cur)) (source.drop candidate) n := by
  have he : endOffset ≤ input.length := by omega
  have hle : cur ≤ input.length - endOffset := by omega
  obtain ⟨x, hrun, hn, hc⟩ := Run.WP_iff.mp (countSameBytes_ok t he hle hcand)
  refine ⟨x.1, ?_, ?_⟩
  · rw [hrun, ← hc]
  · rw [hn]
    exact longestPrefix_commonPrefix _ _

/-- A run that overlaps its source, on a big-endian target. -/
theorem countSameBytes_longest_overlap :
    ∃ n, countSameBytes ⟨.w64, true, false⟩ [1, 2, 1, 2, 1, 2, 9, 0] 2 [1, 2, 1, 2, 1, 2, 9, 0] 0 1 =
        .ret (n, 2 + n) ∧
      LongestPrefix (seg [1, 2, 1, 2, 1, 2, 9, 0] 2 5) ([1, 2, 1, 2, 1, 2, 9, 0] : List UInt8) n :=
  countSameBytes_longest ⟨.w64, true, false⟩ (by decide) (by decide)

/-! ## Reading -/

theorem rd32_ok (t : Target) {src : List UInt8} {pos : Nat} (h : pos + 4 ≤ src.length) :
    (rd32 t src pos).WP (· = neNat t (seg src pos 4)) := by
  simp only [rd32, Run.WP_bind, Run.WP_chunk, Run.pure_eq, Run.WP_ret, and_true]
  exact h

theorem rd64_ok (t : Target) {src : List UInt8} {pos : Nat} (h : pos + 8 ≤ src.length) :
    (rd64 t src pos).WP (· = neNat t (seg src pos 8)) := by
  simp only [rd64, Run.WP_bind, Run.WP_chunk, Run.pure_eq, Run.WP_ret, and_true]
  exact h

theorem rd64Upto_ok (t : Target) {src : List UInt8} {pos limit : Nat} (h : pos ≤ limit)
    (hl : limit + 8 ≤ src.length) :
    (rd64Upto t src pos limit).WP (· = neNat t (seg src pos 8)) := by
  rw [rd64Upto, Run.WP_bind, Run.WP_assert, Nat.min_eq_left h]
  exact ⟨h, rd64_ok t (by omega)⟩

/-- The first four bytes of a word read, as a word. -/
theorem first4_neNat (t : Target) {src : List UInt8} {pos : Nat} (h : pos + 8 ≤ src.length) :
    first4 t (neNat t (seg src pos 8)) = neNat t (seg src pos 4) := by
  have hl : (seg src pos 8).length = 8 := length_seg h
  have := neBytes_neNat t (seg src pos 8)
  rw [hl] at this
  rw [first4, this, take_seg _ (by decide)]

/-! ## Hashing -/

/-- A number of entries that the code permits, as a `usize`. -/
structure ValidEntries (t : Target) (N : Nat) : Prop where
  valid : assertValidEntries N
  lt : N < t.modulus

theorem bucketShift_ok {bits N : Nat} (h : assertValidEntries N) (hlt : N.log2 < bits) :
    (bucketShift bits N).WP fun s => 2 ^ bits = 2 ^ s * N := by
  have h8 : 0 < N.log2 := by
    rcases Nat.eq_zero_or_pos N.log2 with h₀ | h₀
    · have h₁ := h.1
      have h₂ := h.2
      rw [h₀] at h₁
      simp only [MIN_ENTRIES] at h₂
      omega
    · exact h₀
  simp only [bucketShift, Run.WP_bind, Run.WP_sub, Run.WP_assert, Run.pure_eq, Run.WP_ret]
  refine ⟨by omega, by omega, ?_⟩
  calc 2 ^ bits = 2 ^ (bits - N.log2 + N.log2) := by rw [Nat.sub_add_cancel (by omega)]
    _ = 2 ^ (bits - N.log2) * 2 ^ N.log2 := Nat.pow_add _ _ _
    _ = 2 ^ (bits - N.log2) * N := by rw [h.1]

theorem div_bucket_lt {bits s N x : Nat} (h : 2 ^ bits = 2 ^ s * N) :
    x % 2 ^ bits / 2 ^ s < N := by
  have : x % 2 ^ bits < 2 ^ bits := Nat.mod_lt _ (Nat.two_pow_pos bits)
  refine Nat.div_lt_of_lt_mul ?_
  omega

/-- A hash is an index into the table. -/
theorem hashN_ok {t : Target} {N : Nat} (h : ValidEntries t N) (bytes : Nat) :
    (hashN t N bytes).WP (· < N) := by
  have hN : N ≠ 0 := fun h₀ => by
    have := h.valid.2
    simp only [MIN_ENTRIES] at this
    omega
  have hlt := h.lt
  unfold Target.modulus at hlt
  unfold hashN
  split <;> rename_i hw <;> rw [hw] at hlt <;> rw [Run.WP_bind]
  · exact (bucketShift_ok h.valid ((Nat.log2_lt hN).mpr hlt)).mono fun s hs => div_bucket_lt hs
  · exact (bucketShift_ok h.valid ((Nat.log2_lt hN).mpr hlt)).mono fun s hs => div_bucket_lt hs

theorem getHashAt_ok {t : Target} {N : Nat} (h : ValidEntries t N) {input : List UInt8} {pos : Nat}
    (hp : pos + 8 ≤ input.length) : (HashTable.getHashAt t N input pos).WP (· < N) := by
  rw [HashTable.getHashAt, Run.WP_bind]
  exact (rd64_ok t hp).mono fun bytes _ => hashN_ok h bytes

/-! ## Tables -/

section

variable {w N : Nat} {T : HashTable w N} {b : Nat}

/-- Every entry is below `b`. -/
def Below (T : HashTable w N) (b : Nat) : Prop := ∀ i, (h : i < N) → T.dict[i].toNat < b

theorem Below.mono {b' : Nat} (h : Below T b) (hb : b ≤ b') : Below T b' :=
  fun i hi => Nat.lt_of_lt_of_le (h i hi) hb

theorem below_zero (w N : Nat) {b : Nat} (hb : 0 < b) : Below (HashTable.zero w N) b :=
  fun i hi => by
    simp only [HashTable.zero, Vector.getElem_replicate, BitVec.toNat_ofNat, Nat.zero_mod]
    exact hb

/-- Entries have `w` bits. -/
theorem below_two_pow (T : HashTable w N) : Below T (2 ^ w) := fun i hi => T.dict[i].isLt

theorem getAt_ok {idx : Nat} (h : Below T b) (hi : idx < N) : (T.getAt idx).WP (· < b) := by
  rw [HashTable.getAt, dif_pos hi]
  exact h idx hi

/-- The bound of a table whose entries are before a position: zero is always
one of them. -/
theorem one_max_mono {p q : Nat} (h : p ≤ q) : Nat.max 1 p ≤ Nat.max 1 q := by
  show max 1 p ≤ max 1 q
  omega

/-- A table that is written to has its entries below `b`. -/
def Bounded (readonly : Bool) (T : HashTable w N) (b : Nat) : Prop := readonly = false → Below T b

theorem Bounded.mono {readonly : Bool} {b' : Nat} (h : Bounded readonly T b) (hb : b ≤ b') :
    Bounded readonly T b' :=
  fun hr => (h hr).mono hb

theorem Bounded.getAt_ok {readonly : Bool} {idx : Nat} (h : Bounded readonly T b) (hi : idx < N) :
    (T.getAt idx).WP fun c => readonly = false → c < b := by
  rw [HashTable.getAt, dif_pos hi]
  exact fun hr => h hr idx hi

/-- Storing keeps a bound, also where the entry is cut to its width. -/
theorem putAt_ok {idx val : Nat} (h : Below T b) (hi : idx < N) (hv : val < b) :
    (T.putAt idx val).WP (Below · b) := by
  rw [HashTable.putAt, dif_pos hi]
  intro i hi'
  simp only [Vector.getElem_set]
  split
  · exact Nat.lt_of_le_of_lt (BitVec.toNat_ofNat val w ▸ Nat.mod_le _ _) hv
  · exact h i hi'

end

end Lz4rip.Proof.Encode
