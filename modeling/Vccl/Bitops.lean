import Mathlib

/-! The arithmetic helpers of `bitops.h`. Sizes are natural numbers; a conversion
that can lose bits is written out. -/
namespace Vccl

def divUp (x y : Nat) : Nat := (x + y - 1) / y

/-- `a` is a power of two, so clearing the low bits is rounding down to a multiple. -/
def alignUp (x a : Nat) : Nat := (x + a - 1) / a * a

def toInt32 (x : Int) : Int := x.bmod (2 ^ 32)

def toSizeT (x : Int) : Nat := (x % 2 ^ 64).toNat

def log2Up (x : Nat) : Nat := if x - 1 = 0 then 0 else Nat.log2 (x - 1) + 1

def pow2Up (x : Nat) : Nat := 1 <<< log2Up x

def u32fpEncode (x bitsPerPow2 : Nat) : Nat :=
  let log2x := Nat.log2 (x ||| 1)
  let mantissa := (x >>> (if bitsPerPow2 ≤ log2x then log2x - bitsPerPow2 else 0)) &&&
    (1 <<< bitsPerPow2 - 1)
  let exponent := if bitsPerPow2 ≤ log2x then log2x - (bitsPerPow2 - 1) else 0
  exponent <<< bitsPerPow2 ||| mantissa

/-- The leading one is the constant 8 of the source, whatever `bitsPerPow2` is. -/
def u32fpDecode (x bitsPerPow2 : Nat) : Nat :=
  let exponent := x >>> bitsPerPow2
  let mantissa := (x &&& (1 <<< bitsPerPow2 - 1)) ||| (if exponent ≠ 0 then 0x8 else 0)
  let shift := if exponent ≠ 0 then exponent - 1 else exponent
  mantissa <<< shift % 2 ^ 32

def u32fp8Encode (x : Nat) : Nat := u32fpEncode x 3 % 2 ^ 8
def u32fp8Decode (x : Nat) : Nat := u32fpDecode x 3

theorem divUp_eq_ceilDiv (x y : Nat) : divUp x y = x ⌈/⌉ y := rfl

theorem divUp_bounds (x : Nat) {y : Nat} (hy : 0 < y) : x ≤ divUp x y * y ∧ divUp x y * y < x + y := by
  have whole := Nat.div_add_mod (x + y - 1) y
  have rest := Nat.mod_lt (x + y - 1) hy
  rw [Nat.mul_comm] at whole
  unfold divUp
  omega

theorem alignUp_ge (x a : Nat) (pos : 0 < a) : x ≤ alignUp x a := by
  have cover := Nat.div_add_mod (x + a - 1) a
  have rest := Nat.mod_lt (x + a - 1) pos
  rw [Nat.mul_comm] at cover
  unfold alignUp
  omega

variable {x y b k l m n : Nat}

theorem toInt32_of_lt (small : x < 2 ^ 31) : toInt32 x = x := by
  exact Int.bmod_eq_of_le (by omega) (by omega)

theorem toInt32_lt (x : Int) : toInt32 x < 2 ^ 31 := by
  unfold toInt32
  have := Int.bmod_lt (x := x) (m := 2 ^ 32) (by decide)
  omega

theorem toSizeT_of_lt (small : x < 2 ^ 64) : toSizeT x = x := by
  unfold toSizeT
  omega

theorem pow2Up_eq (x : Nat) : pow2Up x = 2 ^ log2Up x := Nat.one_shiftLeft _

theorem le_pow2Up (x : Nat) : x ≤ pow2Up x := by
  rw [pow2Up_eq, log2Up]
  split
  · omega
  · have := Nat.lt_log2_self (n := x - 1)
    omega

theorem lor_one (x : Nat) : x ||| 1 = x / 2 * 2 + 1 := by
  have half : (x ||| 1) / 2 = x / 2 := by
    rw [Nat.or_div_two]
    simp
  have odd : (x ||| 1) % 2 = 1 := by
    rw [Nat.or_mod_two_eq_one]
    exact Or.inr rfl
  omega

/-- `x` is `m` units of `2 ^ k`, rounded down, and `m` has its leading one at bit `b` unless `k` is
zero: the denormal range and the first normal one have the same unit. -/
structure U32fp (b x k m : Nat) : Prop where
  low : m * 2 ^ k ≤ x
  high : x < (m + 1) * 2 ^ k
  fits : m < 2 * 2 ^ b
  lead : k = 0 ∨ 2 ^ b ≤ m

/-- A leading one at bit `b` counts as one more in the exponent. -/
theorem U32fp.lt (hx : U32fp b x k m) (hy : U32fp b y l n) (less : k < l) :
    k * 2 ^ b + m < l * 2 ^ b + n := by
  have lead : 2 ^ b ≤ n := hy.lead.resolve_left (by omega)
  have carry : (k + 1) * 2 ^ b ≤ l * 2 ^ b := Nat.mul_le_mul_right _ less
  have fits := hx.fits
  rw [Nat.succ_mul] at carry
  omega

theorem U32fp.mono (hx : U32fp b x k m) (hy : U32fp b y l n) (le : x ≤ y) :
    k * 2 ^ b + m ≤ l * 2 ^ b + n := by
  rcases lt_trichotomy k l with less | rfl | more
  · exact (hx.lt hy less).le
  · have : m < n + 1 := Nat.lt_of_mul_lt_mul_right ((hx.low.trans le).trans_lt hy.high)
    omega
  · have lead : 2 ^ b ≤ m := hx.lead.resolve_left (by omega)
    have fits := hy.fits
    -- the number of the larger unit is the larger one
    have above : (n + 1) * 2 ^ l ≤ m * 2 ^ k :=
      calc (n + 1) * 2 ^ l
        _ ≤ 2 ^ b * 2 * 2 ^ l := Nat.mul_le_mul_right _ (by omega)
        _ = 2 ^ b * 2 ^ (l + 1) := by rw [Nat.mul_assoc, Nat.pow_succ']
        _ ≤ m * 2 ^ k := Nat.mul_le_mul lead (Nat.pow_le_pow_right (by decide) more)
    exact absurd le (hy.high.trans_le (above.trans hx.low)).not_ge

theorem U32fp.unique (hx : U32fp b x k m) (hy : U32fp b y l n)
    (same : k * 2 ^ b + m = l * 2 ^ b + n) : k = l ∧ m = n := by
  rcases lt_trichotomy k l with less | rfl | more
  · exact absurd same (hx.lt hy less).ne
  · exact ⟨rfl, Nat.add_left_cancel same⟩
  · exact absurd same (hy.lt hx more).ne'

theorem U32fp.near (hx : U32fp b x k m) (hy : U32fp b y k m) : x = y ∨ y * 2 ^ b < x * (2 ^ b + 1) := by
  have := hx.low
  have gap := hy.high
  rw [Nat.succ_mul] at gap
  rcases hx.lead with rfl | lead
  · have := hx.high
    have := hy.low
    omega
  · right
    calc y * 2 ^ b
      _ < (x + 2 ^ k) * 2 ^ b := Nat.mul_lt_mul_of_pos_right (by omega) (Nat.two_pow_pos b)
      _ = x * 2 ^ b + 2 ^ b * 2 ^ k := by rw [Nat.add_mul, Nat.mul_comm (2 ^ k)]
      _ ≤ x * 2 ^ b + x := Nat.add_le_add_left ((Nat.mul_le_mul_right _ lead).trans hx.low) _

theorem U32fp.trunc (hx : U32fp b x k m) : U32fp b (m * 2 ^ k) k m where
  low := le_rfl
  high := Nat.mul_lt_mul_of_pos_right (Nat.lt_succ_self m) (Nat.two_pow_pos k)
  fits := hx.fits
  lead := hx.lead

/-- The leading one of a mantissa carries into the exponent of its code. -/
theorem u32fpEncode_spec (x : Nat) (pos : 0 < b) :
    ∃ k m, U32fp b x k m ∧ u32fpEncode x b = k * 2 ^ b + m := by
  have lor := lor_one x
  have low : 2 ^ Nat.log2 (x ||| 1) ≤ x ||| 1 := Nat.log2_self_le (by omega)
  have high : x ||| 1 < 2 ^ (Nat.log2 (x ||| 1) + 1) := Nat.lt_log2_self
  simp only [u32fpEncode, Nat.one_shiftLeft, Nat.and_two_pow_sub_one_eq_mod, Nat.shiftRight_eq_div_pow]
  generalize Nat.log2 (x ||| 1) = L at *
  by_cases normal : b ≤ L
  · obtain ⟨k, rfl⟩ := Nat.exists_eq_add_of_le normal
    have unit := Nat.two_pow_pos k
    -- the power is even, so it is reached without the bit that was or-ed in
    obtain ⟨half, even⟩ : 2 ∣ 2 ^ (b + k) := dvd_pow_self 2 (by omega)
    have lead : 2 ^ b ≤ x / 2 ^ k := by
      rw [Nat.le_div_iff_mul_le unit, ← Nat.pow_add]
      omega
    have fits : x / 2 ^ k < 2 * 2 ^ b := by
      rw [Nat.div_lt_iff_lt_mul unit, Nat.mul_assoc, ← Nat.pow_add, ← Nat.pow_succ']
      omega
    have above : x < (x / 2 ^ k + 1) * 2 ^ k := by
      rw [Nat.mul_comm]
      exact Nat.lt_mul_div_succ x unit
    refine ⟨k, x / 2 ^ k, ⟨Nat.div_mul_le_self .., above, fits, .inr lead⟩, ?_⟩
    rw [if_pos normal, if_pos normal, Nat.add_sub_cancel_left,
      ← Nat.shiftLeft_add_eq_or_of_lt (Nat.mod_lt _ (Nat.two_pow_pos b)), Nat.shiftLeft_eq,
      Nat.mod_eq_sub_mod lead, Nat.mod_eq_of_lt (by omega), show b + k - (b - 1) = k + 1 by omega,
      Nat.succ_mul]
    omega
  · have : 2 ^ (L + 1) ≤ 2 ^ b := Nat.pow_le_pow_right (by decide) (by omega)
    refine ⟨0, x, ⟨by omega, by omega, by omega, .inl rfl⟩, ?_⟩
    rw [if_neg normal, if_neg normal, Nat.zero_shiftLeft, Nat.zero_or, Nat.pow_zero, Nat.div_one,
      Nat.mod_eq_of_lt (by omega), Nat.zero_mul, Nat.zero_add]

theorem u32fpDecode_spec (h : U32fp 3 x k m) (word : x < 2 ^ 32) :
    u32fpDecode (k * 2 ^ 3 + m) 3 = m * 2 ^ k := by
  have fits := h.fits
  have low := h.low
  simp only [u32fpDecode, Nat.one_shiftLeft, Nat.and_two_pow_sub_one_eq_mod,
    Nat.shiftRight_eq_div_pow, Nat.mul_add_mod_self_right]
  by_cases normal : 2 ^ 3 ≤ m
  · have exponent : (k * 2 ^ 3 + m) / 2 ^ 3 = k + 1 := by omega
    have mantissa : m % 2 ^ 3 ||| 0x8 = m := by interval_cases m <;> rfl
    simp only [exponent, ne_eq, Nat.succ_ne_zero, not_false_eq_true, if_true, mantissa,
      Nat.add_sub_cancel, Nat.shiftLeft_eq]
    exact Nat.mod_eq_of_lt (by omega)
  · obtain rfl : k = 0 := h.lead.resolve_right normal
    clear fits low word h
    interval_cases m <;> rfl

theorem U32fp.code_lt (h : U32fp 3 x k m) (word : x < 2 ^ 32) : k * 2 ^ 3 + m < 2 ^ 8 := by
  have fits := h.fits
  rcases h.lead with rfl | lead
  · omega
  · have : 2 ^ (3 + k) < 2 ^ 32 := by
      rw [Nat.pow_add]
      exact ((Nat.mul_le_mul_right _ lead).trans h.low).trans_lt word
    have := (Nat.pow_lt_pow_iff_right (by decide)).mp this
    omega

theorem u32fp8_spec (word : x < 2 ^ 32) : ∃ k m, U32fp 3 x k m ∧ u32fpEncode x 3 = k * 2 ^ 3 + m ∧
    u32fpEncode x 3 < 2 ^ 8 ∧ u32fp8Decode (u32fp8Encode x) = m * 2 ^ k := by
  obtain ⟨k, m, h, code⟩ := u32fpEncode_spec x (b := 3) (by decide)
  have small := h.code_lt word
  refine ⟨k, m, h, code, code ▸ small, ?_⟩
  rw [u32fp8Decode, u32fp8Encode, code, Nat.mod_eq_of_lt small, u32fpDecode_spec h word]

theorem u32fp8_le (word : x < 2 ^ 32) : u32fp8Decode (u32fp8Encode x) ≤ x := by
  obtain ⟨k, m, h, -, -, decoded⟩ := u32fp8_spec word
  exact decoded ▸ h.low

theorem u32fp_laws :
    (∀ x < 2 ^ 32, u32fp8Decode (u32fp8Encode x) ≤ x ∧
      (u32fp8Decode (u32fp8Encode x) = x ∨ 8 * (x - u32fp8Decode (u32fp8Encode x)) < x) ∧
      u32fp8Encode (u32fp8Decode (u32fp8Encode x)) = u32fp8Encode x ∧ u32fpEncode x 3 < 2 ^ 8) ∧
    ∀ bits, 1 ≤ bits → bits ≤ 8 → ∀ x < 2 ^ 32, ∀ y < 2 ^ 32, x ≤ y →
      u32fpEncode x bits ≤ u32fpEncode y bits ∧ (u32fpEncode x bits = u32fpEncode y bits →
        x = y ∨ y * 2 ^ bits < x * (2 ^ bits + 1)) := by
  constructor
  · intro x word
    obtain ⟨k, m, h, code, small, decoded⟩ := u32fp8_spec word
    obtain ⟨l, n, again, recode⟩ := u32fpEncode_spec (m * 2 ^ k) (b := 3) (by decide)
    have same := le_antisymm (again.mono h.trunc le_rfl) (h.trunc.mono again le_rfl)
    rw [decoded]
    refine ⟨h.low, ?_, ?_, small⟩
    · have low := h.low
      have near := h.trunc.near h
      omega
    · rw [u32fp8Encode, u32fp8Encode, code, recode, same]
  · intro bits pos _ x _ y _ le
    obtain ⟨k, m, hx, codex⟩ := u32fpEncode_spec x pos
    obtain ⟨l, n, hy, codey⟩ := u32fpEncode_spec y pos
    rw [codex, codey]
    refine ⟨hx.mono hy le, fun same => ?_⟩
    obtain ⟨rfl, rfl⟩ := hx.unique hy same
    exact hx.near hy

theorem u32fp_laws_thousand : u32fp8Decode (u32fp8Encode 1000) ≤ 1000 ∧
    u32fpEncode 1000 3 ≤ u32fpEncode 1023 3 ∧ 1023 * 2 ^ 3 < 1000 * (2 ^ 3 + 1) := by
  have laws := u32fp_laws.2 3 (by decide) (by decide) 1000 (by decide) 1023 (by decide) (by decide)
  refine ⟨(u32fp_laws.1 1000 (by decide)).1, laws.1, ?_⟩
  exact (laws.2 (by decide)).resolve_left (by decide)

end Vccl
