import Lz4rip.Proof.Encode.Table

/-!
# What a hash depends on

`hash_n` is documented as the hash of the first bytes in memory, five on 64-bit
targets and four on 32-bit ones. It is one (`HashesPrefix`) on every target but
the 64-bit big-endian ones (`hashesPrefix_iff`), where the shift drops the first
three bytes of the word instead of the last three.
-/

namespace Lz4rip.Proof.Encode

open Lz4rip.Impl

/-- How many bytes a hash is documented to depend on. -/
def prefixLen (t : Target) : Nat :=
  match t.width with
  | .w64 => 5
  | .w32 => 4

/-- Windows that agree on the first bytes in memory have the same hash, which is
an index into the table. -/
def HashesPrefix (t : Target) (N : Nat) : Prop :=
  ∀ (a b : List UInt8) (i j : Nat), i + 8 ≤ a.length → j + 8 ≤ b.length →
    seg a i (prefixLen t) = seg b j (prefixLen t) →
      ∃ h < N, HashTable.getHashAt t N a i = .ret h ∧ HashTable.getHashAt t N b j = .ret h

theorem getHashAt_eq {t : Target} {N : Nat} {src : List UInt8} {pos : Nat}
    (h : pos + 8 ≤ src.length) :
    HashTable.getHashAt t N src pos = hashN t N (neNat t (seg src pos 8)) := by
  rw [HashTable.getHashAt, rd64, Run.chunk_eq h]
  rfl

/-- The first five bytes of a little-endian word are what a shift by three bytes
leaves of it. -/
theorem leNat_mul_mod (bs : List UInt8) :
    leNat bs * 2 ^ 24 % 2 ^ 64 = leNat (bs.take 5) * 2 ^ 24 := by
  rw [leNat_take, show (2 : Nat) ^ 64 = 256 ^ 5 * 2 ^ 24 by decide, Nat.mul_mod_mul_right]

/-- The hash is a function of the bytes it is documented to depend on. -/
theorem hashN_prefix {t : Target} (N : Nat) (ht : ¬ (t.width = .w64 ∧ t.bigEndian = true))
    {src src' : List UInt8} {pos pos' : Nat} (h : pos + 8 ≤ src.length) (h' : pos' + 8 ≤ src'.length)
    (hp : seg src pos (prefixLen t) = seg src' pos' (prefixLen t)) :
    hashN t N (neNat t (seg src pos 8)) = hashN t N (neNat t (seg src' pos' 8)) := by
  unfold prefixLen at hp
  unfold hashN
  cases hw : t.width with
  | w32 =>
    rw [hw] at hp
    dsimp only at hp ⊢
    rw [first4_neNat t h, first4_neNat t h', hp]
  | w64 =>
    have hle : t.bigEndian = false := Bool.not_eq_true _ ▸ fun he => ht ⟨hw, he⟩
    rw [hw] at hp
    dsimp only at hp ⊢
    simp only [neNat, hle, Bool.false_eq_true, if_false, leNat_mul_mod,
      take_seg _ (show 5 ≤ 8 by decide), hp]

/-- On 64-bit big-endian targets the last byte of a window makes a difference: with
it, the eight top bits of the product are not zero. -/
theorem hashN_last {t : Target} {N : Nat} (hN : ValidEntries t N) (hw : t.width = .w64)
    (he : t.bigEndian = true) : hashN t N 0 = .ret 0 ∧ ∀ h, hashN t N 1 = .ret h → h ≠ 0 := by
  have hmin : 2 ^ 8 ≤ N := hN.valid.2
  have hN₀ : N ≠ 0 := by omega
  have hlog : 8 ≤ N.log2 := (Nat.le_log2 hN₀).mpr hmin
  have hmod : t.modulus = 2 ^ 64 := by rw [Target.modulus, hw]
  have hlt : N.log2 < 64 := (Nat.log2_lt hN₀).mpr (hmod ▸ hN.lt)
  have hshift : bucketShift 64 N = .ret (64 - N.log2) := by
    rw [bucketShift, Run.sub, if_pos (by omega), Run.ret_bind, Run.assert, if_pos (by omega)]
    rfl
  simp only [hashN, hw, hshift, Run.ret_bind, Run.pure_eq, PRIME5, he, if_true]
  refine ⟨by rw [Nat.zero_mul, Nat.zero_mod, Nat.zero_mul, Nat.zero_mod, Nat.zero_div],
    fun h hh => ?_⟩
  obtain rfl := Run.ret.inj hh
  have hpow : 2 ^ (64 - N.log2) ≤ 2 ^ 56 := Nat.pow_le_pow_right (by decide) (by omega)
  have hpos : 0 < 2 ^ (64 - N.log2) := Nat.two_pow_pos _
  have htop : 2 ^ 56 ≤ 1 * 2 ^ 24 % 2 ^ 64 * 11400714785074694791 % 2 ^ 64 := by decide
  exact Nat.ne_of_gt (Nat.div_pos (Nat.le_trans hpow htop) hpos)

/-- The documented contract of the hash holds on all targets but the 64-bit
big-endian ones. -/
theorem hashesPrefix_iff {t : Target} {N : Nat} (hN : ValidEntries t N) :
    HashesPrefix t N ↔ ¬ (t.width = .w64 ∧ t.bigEndian = true) := by
  refine ⟨fun h => ?_, fun ht a b i j ha hb hp => ?_⟩
  · rintro ⟨hw, he⟩
    obtain ⟨hash, -, h₁, h₂⟩ := h (List.replicate 8 0) (List.replicate 7 0 ++ [1]) 0 0 (by decide)
      (by decide) (by rw [prefixLen, hw]; decide)
    rw [getHashAt_eq (by decide)] at h₁ h₂
    obtain ⟨hzero, hone⟩ := hashN_last hN hw he
    have e₁ : neNat t (seg (List.replicate 8 0) 0 8) = 0 := by rw [neNat, he]; decide
    have e₂ : neNat t (seg (List.replicate 7 0 ++ [1]) 0 8) = 1 := by rw [neNat, he]; decide
    rw [e₁, hzero] at h₁
    rw [e₂] at h₂
    exact hone hash h₂ (Run.ret.inj h₁).symm
  · obtain ⟨h, hrun, hlt⟩ := Run.WP_iff.mp (getHashAt_ok hN ha)
    refine ⟨h, hlt, hrun, ?_⟩
    rw [getHashAt_eq ha] at hrun
    rw [getHashAt_eq hb, ← hashN_prefix N ht ha hb hp, hrun]

/-- The smallest table of a 64-bit little-endian target. -/
theorem hashesPrefix_iff_smallest : HashesPrefix ⟨.w64, false, false⟩ 256 ↔
    ¬ ((⟨.w64, false, false⟩ : Target).width = .w64 ∧
      (⟨.w64, false, false⟩ : Target).bigEndian = true) :=
  hashesPrefix_iff ⟨by decide, by decide⟩

/-- Two windows of a 64-bit big-endian target that differ in their last byte only
have different hashes. -/
theorem not_hashesPrefix_bigEndian : ¬ HashesPrefix ⟨.w64, true, false⟩ 256 := fun h => by
  obtain ⟨hash, -, h₁, h₂⟩ := h (List.replicate 8 0) (List.replicate 7 0 ++ [1]) 0 0 (by decide)
    (by decide) (by decide)
  have e₁ : HashTable.getHashAt ⟨.w64, true, false⟩ 256 (List.replicate 8 0) 0 = .ret 0 := by decide
  have e₂ : HashTable.getHashAt ⟨.w64, true, false⟩ 256 (List.replicate 7 0 ++ [1]) 0 =
      .ret 177 := by decide
  rw [e₁] at h₁
  rw [e₂] at h₂
  cases h₁
  cases h₂

end Lz4rip.Proof.Encode
