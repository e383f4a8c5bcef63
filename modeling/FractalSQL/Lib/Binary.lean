import Mathlib.Algebra.Order.Field.Power
import Mathlib.Data.Int.Log
import Mathlib.Data.Rat.Floor
import Mathlib.Tactic.Linarith
import Mathlib.Tactic.Ring
import Mathlib.Tactic.NormNum
import Mathlib.Tactic.Positivity

/-!
# Binary floating point

Patterns of an interchange format without their sign, what they stand for, and the pattern that a
rational rounds to: the nearest one, on a tie the even one. Patterns are ordered like their values,
so rounding is monotone.
-/
namespace FractalSQL.Lib

/-- A format: the digits of a significand, the exponent of the least quantum and the pattern of
infinity. -/
structure BinaryFormat where
  fraction : ℕ
  least : ℤ
  infinity : ℕ

def binary64 : BinaryFormat where
  fraction := 52
  least := -1074
  infinity := 2047 * 2 ^ 52

def binary32 : BinaryFormat where
  fraction := 23
  least := -149
  infinity := 255 * 2 ^ 23

/-! ### Rounding to an integer -/

/-- The nearest natural number, on a tie the even one. -/
def roundEven (x : ℚ) : ℕ :=
  if x - ⌊x⌋₊ < 1 / 2 ∨ (x - ⌊x⌋₊ = 1 / 2 ∧ ⌊x⌋₊ % 2 = 0) then ⌊x⌋₊ else ⌊x⌋₊ + 1

theorem floor_le_roundEven (x : ℚ) : ⌊x⌋₊ ≤ roundEven x := by
  unfold roundEven
  split_ifs <;> omega

theorem roundEven_le_floor (x : ℚ) : roundEven x ≤ ⌊x⌋₊ + 1 := by
  unfold roundEven
  split_ifs <;> omega

theorem roundEven_natCast (n : ℕ) : roundEven n = n := by
  rw [roundEven, Nat.floor_natCast, sub_self, if_pos (.inl (by norm_num))]

theorem roundEven_mono {x y : ℚ} (h : x ≤ y) : roundEven x ≤ roundEven y := by
  have hfloor : ⌊x⌋₊ ≤ ⌊y⌋₊ := Nat.floor_mono h
  rcases hfloor.lt_or_eq with hlt | heq
  · exact ((roundEven_le_floor x).trans hlt).trans (floor_le_roundEven y)
  · unfold roundEven
    rw [heq]
    by_cases hy : y - ⌊y⌋₊ < 1 / 2 ∨ (y - ⌊y⌋₊ = 1 / 2 ∧ ⌊y⌋₊ % 2 = 0)
    · rw [if_pos hy, if_pos]
      rcases hy with hy | ⟨hy, heven⟩
      · exact .inl (by linarith)
      · rcases (show x - ⌊y⌋₊ ≤ 1 / 2 by linarith).lt_or_eq with hx | hx
        · exact .inl hx
        · exact .inr ⟨hx, heven⟩
    · rw [if_neg hy]
      split_ifs <;> omega

namespace BinaryFormat
variable (f : BinaryFormat)

/-! ### Patterns and values -/

/-- The value of a pattern: subnormal when its exponent field is zero. -/
def decode (mag : ℕ) : ℚ :=
  if mag / 2 ^ f.fraction = 0 then mag * 2 ^ f.least
  else (2 ^ f.fraction + mag % 2 ^ f.fraction : ℕ) * 2 ^ (f.least + (mag / 2 ^ f.fraction - 1 : ℕ))

/-- The exponent of the quantum that a value is rounded to. -/
def quantum (q : ℚ) : ℤ := max (Int.log 2 q - f.fraction) f.least

/-- The pattern next to a value, where exponents are not bounded. The exponent field counts the
quanta, and a significand that rounds up to the next power of two carries into it. -/
def encode (q : ℚ) : ℕ :=
  if q = 0 then 0 else (f.quantum q - f.least).toNat * 2 ^ f.fraction + roundEven (q / 2 ^ f.quantum q)

theorem decode_lt {mag : ℕ} : f.decode mag < (2 ^ f.fraction : ℕ) * 2 ^ (f.least + (mag / 2 ^ f.fraction : ℕ)) := by
  have hpow (e : ℤ) : (0 : ℚ) < 2 ^ e := zpow_pos (by norm_num) e
  unfold decode
  split_ifs with h
  · rw [h, Nat.cast_zero, add_zero]
    have hlt : mag < 2 ^ f.fraction := (Nat.div_eq_zero_iff_lt (by positivity)).mp h
    exact mul_lt_mul_of_pos_right (by exact_mod_cast hlt) (hpow _)
  · have hmod : mag % 2 ^ f.fraction < 2 ^ f.fraction := Nat.mod_lt _ (by positivity)
    have hexp : f.least + (mag / 2 ^ f.fraction : ℕ) = f.least + (mag / 2 ^ f.fraction - 1 : ℕ) + 1 := by
      rw [Nat.cast_sub (Nat.pos_of_ne_zero h)]
      ring
    rw [hexp, zpow_add_one₀ (by norm_num), mul_comm _ (2 : ℚ), ← mul_assoc]
    refine mul_lt_mul_of_pos_right ?_ (hpow _)
    have hnat : 2 ^ f.fraction + mag % 2 ^ f.fraction < 2 ^ f.fraction * 2 := by omega
    exact_mod_cast hnat

theorem le_decode {mag : ℕ} {e : ℕ} (h : e < mag / 2 ^ f.fraction) :
    (2 ^ f.fraction : ℕ) * 2 ^ (f.least + e) ≤ f.decode mag := by
  rw [decode, if_neg (by omega)]
  refine mul_le_mul ?_ (zpow_le_zpow_right₀ (by norm_num) (by omega)) (by positivity) (by positivity)
  exact_mod_cast Nat.le_add_right _ _

/-- Patterns are ordered like their values. -/
theorem decode_mono {m n : ℕ} (h : m ≤ n) : f.decode m ≤ f.decode n := by
  rcases (Nat.div_le_div_right (c := 2 ^ f.fraction) h).lt_or_eq with hlt | heq
  · exact f.decode_lt.le.trans (f.le_decode hlt)
  · unfold decode
    rw [heq]
    split_ifs
    · exact mul_le_mul_of_nonneg_right (by exact_mod_cast h) (by positivity)
    · have hm := Nat.div_add_mod m (2 ^ f.fraction)
      have hn := Nat.div_add_mod n (2 ^ f.fraction)
      rw [heq] at hm
      have hmod : m % 2 ^ f.fraction ≤ n % 2 ^ f.fraction := by omega
      exact mul_le_mul_of_nonneg_right (by exact_mod_cast Nat.add_le_add_left hmod _) (by positivity)

theorem decode_nonneg (mag : ℕ) : 0 ≤ f.decode mag := by
  unfold decode
  split_ifs <;> positivity

/-! ### Rounding -/

theorem quantum_mono {q r : ℚ} (hq : 0 < q) (h : q ≤ r) : f.quantum q ≤ f.quantum r :=
  max_le_max_right _ (sub_le_sub_right (Int.log_mono_right hq h) _)

/-- A significand has one digit more than the fraction at most. -/
theorem significand_lt {q : ℚ} : q / 2 ^ f.quantum q < (2 ^ (f.fraction + 1) : ℕ) := by
  rw [div_lt_iff₀ (by positivity), Nat.cast_pow, Nat.cast_ofNat, ← zpow_natCast, ← zpow_add₀ (by norm_num)]
  calc q < 2 ^ (Int.log 2 q + 1) := Int.lt_zpow_succ_log_self (by norm_num) q
    _ ≤ 2 ^ (((f.fraction + 1 : ℕ) : ℤ) + f.quantum q) := by
      refine zpow_le_zpow_right₀ (by norm_num) ?_
      have := le_max_left (Int.log 2 q - f.fraction) f.least
      rw [quantum]
      omega

/-- Above the least quantum a significand has no leading zero. -/
theorem le_significand {q : ℚ} (hq : 0 < q) (h : f.least < f.quantum q) : (2 ^ f.fraction : ℕ) ≤ q / 2 ^ f.quantum q := by
  rw [le_div_iff₀ (by positivity), Nat.cast_pow, Nat.cast_ofNat, ← zpow_natCast, ← zpow_add₀ (by norm_num)]
  calc (2 : ℚ) ^ ((f.fraction : ℤ) + f.quantum q) = 2 ^ Int.log 2 q := by
        congr 1
        rw [quantum] at h ⊢
        omega
    _ ≤ q := Int.zpow_log_le_self (by norm_num) hq

theorem encode_mono {q r : ℚ} (hq : 0 ≤ q) (h : q ≤ r) : f.encode q ≤ f.encode r := by
  rcases hq.eq_or_lt' with rfl | hq
  · rw [encode, if_pos rfl]
    exact Nat.zero_le _
  unfold encode
  rw [if_neg hq.ne', if_neg (hq.trans_le h).ne']
  have hleast : f.least ≤ f.quantum q := le_max_right _ _
  rcases (f.quantum_mono hq h).lt_or_eq with hlt | heq
  · have hup : roundEven (q / 2 ^ f.quantum q) ≤ 2 ^ (f.fraction + 1) := by
      rw [← roundEven_natCast (2 ^ (f.fraction + 1))]
      exact roundEven_mono f.significand_lt.le
    have hlow : 2 ^ f.fraction ≤ roundEven (r / 2 ^ f.quantum r) := by
      rw [← roundEven_natCast (2 ^ f.fraction)]
      exact roundEven_mono (f.le_significand (hq.trans_le h) (hleast.trans_lt hlt))
    have hfield : (f.quantum q - f.least).toNat + 1 ≤ (f.quantum r - f.least).toNat := by omega
    rw [pow_succ] at hup
    calc (f.quantum q - f.least).toNat * 2 ^ f.fraction + roundEven (q / 2 ^ f.quantum q)
        ≤ ((f.quantum q - f.least).toNat + 1) * 2 ^ f.fraction + 2 ^ f.fraction := by
          rw [add_mul]
          omega
      _ ≤ _ := Nat.add_le_add (Nat.mul_le_mul_right _ hfield) hlow
  · rw [heq]
    exact Nat.add_le_add_left (roundEven_mono (div_le_div_of_nonneg_right h (by positivity))) _

end BinaryFormat

/-! ### Signed numbers -/

/-- A sign and a pattern. -/
structure Signed where
  neg : Bool
  mag : ℕ
deriving DecidableEq

namespace BinaryFormat
variable (f g : BinaryFormat)

def finite (x : Signed) : Bool := x.mag < f.infinity

/-- The number that a magnitude rounds to; too large ones round to infinity. -/
def round (neg : Bool) (q : ℚ) : Signed := ⟨neg, min (f.encode q) f.infinity⟩

def infinite (neg : Bool) : Signed := ⟨neg, f.infinity⟩

/-- A quiet NaN. -/
def nan (neg : Bool) : Signed := ⟨neg, f.infinity + 2 ^ (f.fraction - 1)⟩

/-- A number of the format `f` in the format `g`. -/
def convert (x : Signed) : Signed :=
  if x.mag < f.infinity then g.round x.neg (f.decode x.mag)
  else if x.mag = f.infinity then g.infinite x.neg
  else g.nan x.neg

end BinaryFormat
end FractalSQL.Lib
