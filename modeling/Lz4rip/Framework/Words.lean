import Mathlib.Data.Nat.Bitwise
import Lz4rip.Framework.Target

/-!
# Native-endian words and common prefixes

`neNat` is the value of a byte string read in the byte order of the target,
`neBytes` the way back. `commonPrefix` is the length of the longest common
prefix of two lists; `trailingZeros_xor` says that the code's way of finding
it within a word (exclusive or, `to_le`, `trailing_zeros`) does find it, in
either byte order.
-/

namespace Lz4rip

/-- `from_ne_bytes`. -/
def neNat (t : Target) (bs : List UInt8) : Nat :=
  if t.bigEndian then leNat bs.reverse else leNat bs

/-- `to_ne_bytes` of a word of `k` bytes. -/
def neBytes (t : Target) (k n : Nat) : List UInt8 :=
  if t.bigEndian then (leBytes k n).reverse else leBytes k n

/-- `to_le` of a word of `k` bytes. -/
def toLe (t : Target) (k n : Nat) : Nat :=
  if t.bigEndian then leNat (leBytes k n).reverse else n

theorem neBytes_neNat (t : Target) (bs : List UInt8) : neBytes t bs.length (neNat t bs) = bs := by
  unfold neBytes neNat
  split
  · rw [← List.length_reverse, leBytes_leNat, List.reverse_reverse]
  · exact leBytes_leNat bs

theorem neNat_inj (t : Target) {a b : List UInt8} (hl : a.length = b.length)
    (h : neNat t a = neNat t b) : a = b := by
  rw [← neBytes_neNat t a, h, hl, neBytes_neNat]

/-! ## Trailing zeros -/

/-- `trailing_zeros` of a word of `w` bits. -/
def trailingZeros : Nat → Nat → Nat
  | 0, _ => 0
  | w + 1, n => if n % 2 = 1 then 0 else 1 + trailingZeros w (n / 2)

theorem trailingZeros_mul : ∀ (j w n : Nat),
    trailingZeros (w + j) (2 ^ j * n) = trailingZeros w n + j
  | 0, w, n => by rw [Nat.pow_zero, Nat.one_mul, Nat.add_zero, Nat.add_zero]
  | j + 1, w, n => by
    have h : 2 ^ (j + 1) * n = 2 * (2 ^ j * n) := by rw [Nat.pow_succ, Nat.mul_comm (2 ^ j), Nat.mul_assoc]
    rw [← Nat.add_assoc, trailingZeros, h, Nat.mul_mod_right, if_neg (by decide),
      Nat.mul_div_cancel_left _ (by decide), trailingZeros_mul j w n]
    omega

theorem trailingZeros_lt : ∀ {j w n : Nat}, n % 2 ^ j ≠ 0 → j ≤ w → trailingZeros w n < j
  | 0, w, n, h, _ => absurd (Nat.mod_one n) h
  | j + 1, w + 1, n, h, hw => by
    rw [trailingZeros]
    split
    · omega
    · rename_i hodd
      have hn : n / 2 % 2 ^ j ≠ 0 := fun h₀ => h (by
        rw [Nat.pow_succ, Nat.mul_comm, Nat.mod_mul, h₀]
        omega)
      have := trailingZeros_lt hn (Nat.le_of_succ_le_succ hw)
      omega

/-! ## Common prefixes -/

section

variable {α : Type} [DecidableEq α]

/-- The length of the longest common prefix. -/
def commonPrefix : List α → List α → Nat
  | a :: as, b :: bs => if a = b then commonPrefix as bs + 1 else 0
  | _, _ => 0

theorem commonPrefix_le : ∀ a b : List α,
    commonPrefix a b ≤ a.length ∧ commonPrefix a b ≤ b.length
  | [], _ => ⟨Nat.zero_le _, Nat.zero_le _⟩
  | _ :: _, [] => ⟨Nat.zero_le _, Nat.zero_le _⟩
  | a :: as, b :: bs => by
    have := commonPrefix_le as bs
    rw [commonPrefix, List.length_cons, List.length_cons]
    split <;> omega

theorem take_commonPrefix : ∀ a b : List α,
    a.take (commonPrefix a b) = b.take (commonPrefix a b)
  | [], _ => rfl
  | _ :: _, [] => rfl
  | a :: as, b :: bs => by
    rw [commonPrefix]
    split
    · rename_i h
      rw [List.take_succ_cons, List.take_succ_cons, h, take_commonPrefix as bs]
    · rw [List.take_zero, List.take_zero]

/-- A common prefix is no longer than the longest one. -/
theorem le_commonPrefix : ∀ {n : Nat} {a b : List α}, n ≤ a.length → n ≤ b.length →
    a.take n = b.take n → n ≤ commonPrefix a b
  | 0, _, _, _, _, _ => Nat.zero_le _
  | n + 1, a :: as, b :: bs, ha, hb, h => by
    rw [List.take_succ_cons, List.take_succ_cons] at h
    obtain ⟨rfl, h'⟩ := List.cons.inj h
    rw [commonPrefix, if_pos rfl]
    exact Nat.succ_le_succ (le_commonPrefix (Nat.le_of_succ_le_succ ha)
      (Nat.le_of_succ_le_succ hb) h')

/-- `n` is the length of the longest common prefix of `a` and `b`. -/
structure LongestPrefix (a b : List α) (n : Nat) : Prop where
  left_le : n ≤ a.length
  right_le : n ≤ b.length
  agrees : a.take n = b.take n
  longest : ∀ m, m ≤ a.length → m ≤ b.length → a.take m = b.take m → m ≤ n

theorem longestPrefix_commonPrefix (a b : List α) : LongestPrefix a b (commonPrefix a b) :=
  ⟨(commonPrefix_le a b).1, (commonPrefix_le a b).2, take_commonPrefix a b,
    fun _ ha hb h => le_commonPrefix ha hb h⟩

theorem commonPrefix_append : ∀ {p q : List α} (a b : List α), p = q →
    commonPrefix (p ++ a) (q ++ b) = p.length + commonPrefix a b
  | [], _, a, b, rfl => (Nat.zero_add _).symm
  | c :: p, _, a, b, rfl => by
    rw [List.cons_append, List.cons_append, commonPrefix, if_pos rfl, commonPrefix_append a b rfl,
      List.length_cons]
    omega

theorem commonPrefix_append_ne : ∀ {p q : List α} (a b : List α), p.length = q.length → p ≠ q →
    commonPrefix (p ++ a) (q ++ b) = commonPrefix p q
  | [], [], _, _, _, h => absurd rfl h
  | c :: p, d :: q, a, b, hl, h => by
    rw [List.cons_append, List.cons_append, commonPrefix, commonPrefix]
    split
    · rename_i hcd
      rw [commonPrefix_append_ne a b (Nat.succ.inj hl) fun he => h (by rw [hcd, he])]
    · rfl

theorem commonPrefix_take (n : Nat) (a b : List α) (h : n = min a.length b.length) :
    commonPrefix (a.take n) (b.take n) = commonPrefix a b := by
  refine Nat.le_antisymm ?_ ?_
  · have hle := commonPrefix_le (a.take n) (b.take n)
    have := take_commonPrefix (a.take n) (b.take n)
    rw [List.length_take, List.length_take] at hle
    rw [List.take_take, List.take_take, Nat.min_eq_left (by omega)] at this
    exact le_commonPrefix (by omega) (by omega) this
  · have hle := commonPrefix_le a b
    have := take_commonPrefix a b
    refine le_commonPrefix (by rw [List.length_take]; omega) (by rw [List.length_take]; omega) ?_
    rwa [List.take_take, List.take_take, Nat.min_eq_left (by omega)]

end

/-! ## Exclusive or -/

theorem xor_cons (a b : UInt8) (x y : Nat) :
    (a.toNat + 256 * x) ^^^ (b.toNat + 256 * y) = (a ^^^ b).toNat + 256 * (x ^^^ y) := by
  have ha := a.toNat_lt
  have hb := b.toNat_lt
  have hd : ∀ c z : Nat, c < 256 → (c + 256 * z) / 2 ^ 8 = z := fun c z hc => by omega
  have hm : ∀ c z : Nat, c < 256 → (c + 256 * z) % 2 ^ 8 = c := fun c z hc => by omega
  have h₁ : ((a.toNat + 256 * x) ^^^ (b.toNat + 256 * y)) / 2 ^ 8 = x ^^^ y := by
    rw [Nat.xor_div_two_pow, hd _ _ ha, hd _ _ hb]
  have h₂ : ((a.toNat + 256 * x) ^^^ (b.toNat + 256 * y)) % 2 ^ 8 = (a ^^^ b).toNat := by
    rw [Nat.xor_mod_two_pow, hm _ _ ha, hm _ _ hb, UInt8.toNat_xor]
  have := Nat.div_add_mod ((a.toNat + 256 * x) ^^^ (b.toNat + 256 * y)) (2 ^ 8)
  rw [h₁, h₂] at this
  omega

theorem leNat_xor : ∀ {a b : List UInt8}, a.length = b.length →
    leNat a ^^^ leNat b = leNat (List.zipWith (· ^^^ ·) a b)
  | [], [], _ => rfl
  | a :: as, b :: bs, h => by
    rw [leNat, leNat, xor_cons, leNat_xor (Nat.succ.inj h), List.zipWith_cons_cons, leNat]

/-- The first bit in which two words differ is in the first byte in which they
do. -/
theorem trailingZeros_leNat_xor : ∀ {a b : List UInt8}, a.length = b.length → a ≠ b →
    trailingZeros (8 * a.length) (leNat a ^^^ leNat b) / 8 = commonPrefix a b
  | [], [], _, h => absurd rfl h
  | a :: as, b :: bs, hl, h => by
    rw [leNat, leNat, xor_cons, commonPrefix, List.length_cons, Nat.mul_succ]
    by_cases hab : a = b
    · have ih := trailingZeros_leNat_xor (Nat.succ.inj hl) fun he => h (by rw [hab, he])
      have h₀ : (a ^^^ b).toNat = 0 := by rw [hab, UInt8.xor_self]; rfl
      rw [if_pos hab, h₀, Nat.zero_add, show 256 = 2 ^ 8 from rfl, trailingZeros_mul]
      omega
    · have h₀ : (a ^^^ b).toNat ≠ 0 := fun h₀ => hab (UInt8.xor_eq_zero_iff.mp
        (UInt8.toNat_inj.mp h₀))
      have hlt := (a ^^^ b).toNat_lt
      have := trailingZeros_lt (j := 8) (w := 8 * as.length + 8)
        (n := (a ^^^ b).toNat + 256 * (leNat as ^^^ leNat bs)) (by omega) (by omega)
      rw [if_neg hab]
      omega

/-- The code finds the first byte in which two words differ. -/
theorem trailingZeros_xor (t : Target) {a b : List UInt8} (hl : a.length = b.length) (h : a ≠ b) :
    trailingZeros (8 * a.length) (toLe t a.length (neNat t a ^^^ neNat t b)) / 8 =
      commonPrefix a b := by
  have hxl : (List.zipWith (· ^^^ ·) a b).length = a.length := by
    rw [List.length_zipWith]
    omega
  unfold toLe neNat
  cases t.bigEndian with
  | false => exact trailingZeros_leNat_xor hl h
  | true =>
    simp only [if_true]
    rw [leNat_xor (by rw [List.length_reverse, List.length_reverse, hl]), ← List.reverse_zipWith hl,
      ← hxl, ← List.length_reverse, leBytes_leNat, List.reverse_reverse, List.length_reverse,
      ← leNat_xor hl, hxl]
    exact trailingZeros_leNat_xor hl h

theorem xor_eq_zero_iff (t : Target) {a b : List UInt8} (hl : a.length = b.length) :
    neNat t a ^^^ neNat t b = 0 ↔ a = b := by
  refine Nat.xor_eq_zero_iff.trans ⟨neNat_inj t hl, fun h => by rw [h]⟩

end Lz4rip
