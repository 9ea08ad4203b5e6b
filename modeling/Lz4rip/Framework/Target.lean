import Lz4rip.Framework.Slice

/-!
# The target: `usize` and native-endian words

A target has a pointer width, a byte order and vector features. `usize` values are natural
numbers below `t.modulus`; additions and subtractions that leave that range
panic (`Target.add`, `Run.sub`), as with overflow checks on, except where
the code asks for wrapping arithmetic (`Target.wrappingSub`).

`t.Addressable bufs` is what the language and the machine guarantee of slices
that are live at the same time: each has at most `isize::MAX` bytes, and they
lie in one address space together with the page of the null address, which no
slice contains. Pointers of 64-bit machines are canonical, so a program has at
most half of their values.
-/

namespace Lz4rip

/-- `target_pointer_width`. -/
inductive PointerWidth where
  | w32
  | w64
  deriving DecidableEq, Repr

/-- `target_pointer_width`, `target_endian` and whether `target_feature` has
`avx`. -/
structure Target where
  width : PointerWidth
  bigEndian : Bool
  avx : Bool
  deriving DecidableEq, Repr

namespace Target

variable (t : Target)

/-- `usize::MAX + 1`. -/
def modulus : Nat :=
  match t.width with
  | .w32 => 2 ^ 32
  | .w64 => 2 ^ 64

def usizeMax : Nat := t.modulus - 1

def isizeMax : Nat := t.modulus / 2 - 1

/-- How many addresses a program can have. -/
def addressSpace : Nat :=
  match t.width with
  | .w32 => 2 ^ 32
  | .w64 => 2 ^ 63

theorem addressSpace_le : t.addressSpace ≤ t.modulus := by
  unfold modulus addressSpace
  cases t.width <;> decide

theorem modulus_eq_of_w64 (h : t.width = .w64) : t.modulus = 2 * t.addressSpace := by
  simp only [modulus, addressSpace, h, Nat.reducePow, Nat.reduceMul]

theorem modulus_cases : t.modulus = 4294967296 ∨ t.modulus = 18446744073709551616 := by
  unfold modulus
  cases t.width
  · exact .inl rfl
  · exact .inr rfl

theorem modulus_pos : 0 < t.modulus := by
  rcases t.modulus_cases with h | h
  all_goals rw [h]; decide

/-- `a + b`, checked. -/
def add (a b : Nat) : Run Nat := if a + b < t.modulus then .ret (a + b) else .panic

/-- `a.wrapping_sub(b)`. -/
def wrappingSub (a b : Nat) : Nat := (a + (t.modulus - b)) % t.modulus

@[simp] theorem WP_add {a b : Nat} {Q : Nat → Prop} :
    Run.WP (t.add a b) Q = (a + b < t.modulus ∧ Q (a + b)) := by
  unfold add
  split <;> simp [*]

theorem wrappingSub_of_le {a b : Nat} (h : b ≤ a) (ha : a < t.modulus) :
    t.wrappingSub a b = a - b := by
  rw [wrappingSub, show a + (t.modulus - b) = a - b + t.modulus by omega, Nat.add_mod_right,
    Nat.mod_eq_of_lt (by omega)]

theorem wrappingSub_of_lt {a b : Nat} (h : a < b) (hb : b ≤ t.modulus) :
    t.wrappingSub a b = t.modulus - (b - a) := by
  rw [wrappingSub, Nat.mod_eq_of_lt (by omega)]
  omega

/-- Byte slices live at the same time. -/
def Addressable (bufs : List (List UInt8)) : Prop :=
  (∀ b ∈ bufs, b.length ≤ t.isizeMax) ∧ (bufs.map List.length).sum + 4096 ≤ t.addressSpace

instance (bufs : List (List UInt8)) : Decidable (t.Addressable bufs) :=
  inferInstanceAs (Decidable (_ ∧ _))

end Target

/-! ## Words -/

/-- The value of a little-endian byte string. -/
def leNat : List UInt8 → Nat
  | [] => 0
  | b :: bs => b.toNat + 256 * leNat bs

/-- `n` as `k` little-endian bytes. -/
def leBytes : Nat → Nat → List UInt8
  | 0, _ => []
  | k + 1, n => UInt8.ofNat n :: leBytes k (n / 256)

@[simp] theorem length_leBytes : ∀ k n, (leBytes k n).length = k
  | 0, _ => rfl
  | k + 1, n => by rw [leBytes, List.length_cons, length_leBytes k]

theorem leNat_lt : ∀ bs : List UInt8, leNat bs < 256 ^ bs.length
  | [] => by decide
  | b :: bs => by
    have hb := b.toNat_lt
    have ih := leNat_lt bs
    rw [leNat, List.length_cons, Nat.pow_succ]
    omega

theorem leNat_leBytes : ∀ k n, leNat (leBytes k n) = n % 256 ^ k
  | 0, n => by rw [leBytes, leNat, Nat.pow_zero, Nat.mod_one]
  | k + 1, n => by
    rw [leBytes, leNat, leNat_leBytes k, Nat.pow_succ, Nat.mul_comm (256 ^ k), Nat.mod_mul,
      UInt8.toNat_ofNat']

theorem leBytes_leNat : ∀ bs : List UInt8, leBytes bs.length (leNat bs) = bs
  | [] => rfl
  | b :: bs => by
    have hb := b.toNat_lt
    rw [List.length_cons, leNat, leBytes, show (b.toNat + 256 * leNat bs) / 256 = leNat bs by omega,
      leBytes_leNat bs]
    congr 1
    rw [← UInt8.toNat_inj, UInt8.toNat_ofNat']
    omega

/-- The first bytes are the value modulo a power. -/
theorem leNat_take : ∀ (k : Nat) (bs : List UInt8), leNat (bs.take k) = leNat bs % 256 ^ k
  | 0, bs => by rw [List.take_zero, leNat, Nat.pow_zero, Nat.mod_one]
  | k + 1, [] => by rw [List.take_nil, leNat, Nat.zero_mod]
  | k + 1, b :: bs => by
    have hb := b.toNat_lt
    have hdiv : (b.toNat + 256 * leNat bs) / 256 = leNat bs := by omega
    rw [List.take_succ_cons, leNat, leNat, leNat_take k bs, Nat.pow_succ, Nat.mul_comm (256 ^ k),
      Nat.mod_mul, hdiv]
    omega

end Lz4rip
