import CurveScript.Number.Nearest
import Mathlib.Algebra.Order.Ring.Abs
import Mathlib.Algebra.Order.Ring.Rat
import Mathlib.Order.Monotone.Basic
import Mathlib.Tactic.FieldSimp
import Mathlib.Tactic.Linarith
import Mathlib.Tactic.NormNum
import Mathlib.Tactic.Positivity
import Mathlib.Tactic.Ring

/-! # Rounding gives the nearest number

A finite number stands for a fraction, `Binary64.toRat`, and a fraction rounds to the number that
stands for the nearest one, `Binary64.RoundsTo`: of two that are equally near, to the one with the
even significand, and from halfway between the largest finite number and `2 ^ 1024` on, to infinity.

Counted upwards from zero, the positive numbers are those with the bits 0, 1, 2 and so on.
`Binary64.units n` is number `n` in this count, in units of `2 ^ -1074`, and the count goes on
behind the last finite number as if exponents had no bound. Rounding is then a matter of finding
the two neighbours between which a fraction lies:

* `Binary64.units_add`, where a significand and a shift come in the count;
* `Binary64.nearest_of_closer` and `Binary64.nearest_succ_of_closer`, that the closer of two
  neighbours is the nearest number of all;
* `Binary64.ofRatio_roundsTo` and `Decimal.nearest_roundsTo`, that ratios and decimals are rounded;
* `Binary64.RoundsTo.unique`, that a fraction rounds to one number only. -/

namespace CurveScript

namespace Binary64

/-! ## What the bits stand for -/

/-- How many units make one. A unit is the least positive number. -/
def perOne : ℚ :=
  2 ^ 1074

/-- The fraction that finite bits stand for. -/
def toRat (x : Binary64) : ℚ :=
  (if x.isNegative then -1 else 1) * (x.significand * 2 ^ x.shift) / perOne

/-- Neither infinite nor no number. -/
def IsFinite (x : Binary64) : Prop :=
  x.magnitude < infinityBits

/-- The least fraction that rounds to infinity. -/
def overflow : ℚ :=
  2 ^ 1024 - 2 ^ 970

/-- The greatest fraction that rounds to zero. -/
def underflow : ℚ :=
  1 / 2 ^ 1075

/-- A fraction that is not negative rounds to `x`. -/
structure RoundsTo (q : ℚ) (x : Binary64) : Prop where
  number : x.isNaN = false
  unsigned : x.isNegative = false
  zero : q ≤ underflow → x = ⟨0⟩
  infinity : overflow ≤ q → x = ⟨UInt64.ofNat infinityBits⟩
  finite : q < overflow → x.IsFinite
  nearest : q < overflow → ∀ y : Binary64, y.IsFinite → |x.toRat - q| ≤ |y.toRat - q|
  even : q < overflow → ∀ y : Binary64, y.IsFinite → y.toRat ≠ x.toRat →
    |x.toRat - q| = |y.toRat - q| → x.significand % 2 = 0

/-! ## Counting the numbers -/

/-- Number `n` of all numbers that are not negative, in units of `2 ^ -1074`. -/
def units (n : Nat) : Nat :=
  if n < leadingBit then n else (n % leadingBit + leadingBit) * 2 ^ (n / leadingBit - 1)

theorem significand_mul_shift (x : Binary64) : x.significand * 2 ^ x.shift = units x.magnitude := by
  unfold units significand shift
  split
  · next small => rw [Nat.div_eq_of_lt small, pow_zero, Nat.mul_one]
  · rfl

theorem perOne_pos : 0 < perOne :=
  pow_pos (by norm_num) _

theorem toRat_eq {x : Binary64} (unsigned : x.isNegative = false) :
    x.toRat = units x.magnitude / perOne := by
  rw [toRat, unsigned, ← significand_mul_shift]
  push_cast
  simp

/-- Where a significand with a shift comes in the count. It may have reached the next power of
    two. -/
theorem units_add {m s : Nat} (bounded : m ≤ 2 * leadingBit) (normal : s = 0 ∨ leadingBit ≤ m) :
    units (s * leadingBit + m) = m * 2 ^ s := by
  have positive : 0 < leadingBit := by decide
  by_cases subnormal : m < leadingBit
  · obtain rfl : s = 0 := by omega
    simp [units, subnormal]
  · obtain ⟨f, rfl⟩ := Nat.exists_eq_add_of_le (Nat.le_of_not_lt subnormal)
    have split : s * leadingBit + (leadingBit + f) = f + leadingBit * (s + 1) := by ring
    rw [units, if_neg (by rw [split]; nlinarith), split, Nat.add_mul_mod_self_left,
      Nat.add_mul_div_left _ _ positive]
    rcases Nat.lt_or_ge f leadingBit with inside | carried
    · rw [Nat.mod_eq_of_lt inside, Nat.div_eq_of_lt inside, Nat.zero_add, Nat.add_sub_cancel,
        Nat.add_comm f]
    · obtain rfl : f = leadingBit := by omega
      rw [Nat.mod_self, Nat.div_self positive, Nat.zero_add, Nat.add_sub_cancel_left, pow_succ]
      ring

/-- Every number comes in the count as a significand with a shift. -/
theorem exists_significand (n : Nat) :
    ∃ s m, n = s * leadingBit + m ∧ m < 2 * leadingBit ∧ (s = 0 ∨ leadingBit ≤ m) := by
  have positive : 0 < leadingBit := by decide
  have whole := Nat.div_add_mod n leadingBit
  have inside := Nat.mod_lt n positive
  cases exponent : n / leadingBit with
  | zero =>
    rw [exponent] at whole
    exact ⟨0, n, by omega, by omega, .inl rfl⟩
  | succ s =>
    rw [exponent] at whole
    refine ⟨s, n % leadingBit + leadingBit, ?_, by omega, .inr (by omega)⟩
    calc n = leadingBit * (s + 1) + n % leadingBit := whole.symm
      _ = s * leadingBit + (n % leadingBit + leadingBit) := by ring

theorem units_lt_succ (n : Nat) : units n < units (n + 1) := by
  obtain ⟨s, m, rfl, bounded, normal⟩ := exists_significand n
  rw [Nat.add_assoc, units_add (by omega) normal, units_add (by omega) (by omega)]
  exact Nat.mul_lt_mul_of_pos_right (Nat.lt_succ_self m) (Nat.two_pow_pos s)

theorem units_strictMono : StrictMono units :=
  strictMono_nat_of_lt_succ units_lt_succ

/-! ## The nearer of two neighbours -/

/-- How far number `n` is from a fraction that is measured in units. -/
def distance (u : ℚ) (n : Nat) : ℚ :=
  |units n - u|

/-- Number `n` is the nearest one, and of two that are equally near the even one. -/
structure Nearest (u : ℚ) (n : Nat) : Prop where
  least : ∀ m, distance u n ≤ distance u m
  even : ∀ m, m ≠ n → distance u n = distance u m → n % 2 = 0

/-- The fraction lies between number `n` and the next one. -/
structure Between (u : ℚ) (n : Nat) : Prop where
  lower : units n ≤ u
  upper : u ≤ units (n + 1)

section

variable {u : ℚ} {n m : Nat}

theorem distance_of_le (below : units n ≤ u) : distance u n = u - units n := by
  rw [distance, abs_sub_comm, abs_of_nonneg (sub_nonneg.mpr below)]

theorem distance_of_ge (above : u ≤ units n) : distance u n = units n - u :=
  abs_of_nonneg (sub_nonneg.mpr above)

theorem cast_units_lt (less : n < m) : (units n : ℚ) < units m :=
  Nat.cast_lt.mpr (units_strictMono less)

/-- Every other number is farther away than one of the two neighbours. -/
theorem Between.farther (between : Between u n) (m : Nat) :
    m = n ∨ m = n + 1 ∨ distance u n < distance u m ∨ distance u (n + 1) < distance u m := by
  obtain ⟨lower, upper⟩ := between
  rcases Nat.lt_trichotomy m n with less | same | greater
  · have below := cast_units_lt less
    refine .inr (.inr (.inl ?_))
    rw [distance_of_le lower, distance_of_le (by linarith)]
    linarith
  · exact .inl same
  · rcases Nat.eq_or_lt_of_le greater with next | later
    · exact .inr (.inl next.symm)
    · have above := cast_units_lt later
      refine .inr (.inr (.inr ?_))
      rw [Nat.succ_eq_add_one] at above
      rw [distance_of_ge upper, distance_of_ge (by linarith)]
      linarith

/-- A number between two that are equally near is nearer than both. -/
theorem distance_lt_of_between {k : Nat} (after : n < k) (before : k < m)
    (tie : distance u n = distance u m) : distance u k < distance u n := by
  have lower := cast_units_lt after
  have upper := cast_units_lt before
  unfold distance at *
  rcases abs_eq_abs.mp tie with same | opposite
  · linarith
  · have inside : |(units k : ℚ) - u| < u - units n := abs_lt.mpr ⟨by linarith, by linarith⟩
    rw [abs_sub_comm (units n : ℚ)]
    exact inside.trans_le (le_abs_self _)

theorem nearest_of_closer (between : Between u n) (closer : distance u n ≤ distance u (n + 1))
    (even : distance u n = distance u (n + 1) → n % 2 = 0) : Nearest u n := by
  constructor
  · intro m
    rcases between.farther m with rfl | rfl | far | far
    · exact le_refl _
    · exact closer
    · exact far.le
    · exact closer.trans far.le
  · intro m other tie
    rcases between.farther m with rfl | rfl | far | far
    · exact absurd rfl other
    · exact even tie
    · exact absurd tie far.ne
    · exact absurd tie (closer.trans_lt far).ne

theorem nearest_succ_of_closer (between : Between u n)
    (closer : distance u (n + 1) ≤ distance u n)
    (even : distance u (n + 1) = distance u n → (n + 1) % 2 = 0) : Nearest u (n + 1) := by
  constructor
  · intro m
    rcases between.farther m with rfl | rfl | far | far
    · exact closer
    · exact le_refl _
    · exact closer.trans far.le
    · exact far.le
  · intro m other tie
    rcases between.farther m with rfl | rfl | far | far
    · exact even tie
    · exact absurd rfl other
    · exact absurd tie (closer.trans_lt far).ne
    · exact absurd tie far.ne

end

end Binary64

/-! ## Ratios -/

theorem roundHalfEven_cases (num den : Nat) :
    (roundHalfEven num den = num / den ∧ 2 * (num % den) ≤ den ∧
      (2 * (num % den) = den → num / den % 2 = 0)) ∨
    (roundHalfEven num den = num / den + 1 ∧ den ≤ 2 * (num % den) ∧
      (2 * (num % den) = den → (num / den + 1) % 2 = 0)) := by
  unfold roundHalfEven
  dsimp only
  split
  · exact .inl ⟨rfl, by omega, by omega⟩
  split
  · exact .inr ⟨rfl, by omega, by omega⟩
  rcases Nat.mod_two_eq_zero_or_one (num / den) with even | odd
  · exact .inl ⟨by omega, by omega, fun _ => even⟩
  · exact .inr ⟨by omega, by omega, by omega⟩

namespace Binary64

/-- The neighbours of a ratio, and how far away they are. -/
theorem between_of_ratio {num den s : Nat} (positive : 0 < den)
    (bounded : num / (den * 2 ^ s) < 2 * leadingBit)
    (normal : s = 0 ∨ leadingBit ≤ num / (den * 2 ^ s)) :
    Between (num / den) (s * leadingBit + num / (den * 2 ^ s)) ∧
    distance (num / den) (s * leadingBit + num / (den * 2 ^ s)) =
      (num % (den * 2 ^ s) : ℕ) / den ∧
    distance (num / den) (s * leadingBit + num / (den * 2 ^ s) + 1) =
      (den * 2 ^ s - num % (den * 2 ^ s) : ℕ) / den := by
  have lowerUnits := units_add (Nat.le_of_lt bounded) normal
  have upperUnits := units_add (s := s) (m := num / (den * 2 ^ s) + 1) bounded (by omega)
  rw [← Nat.add_assoc] at upperUnits
  have remainder := Nat.mod_lt num (Nat.mul_pos positive (Nat.two_pow_pos s))
  have whole := Nat.div_add_mod num (den * 2 ^ s)
  generalize num / (den * 2 ^ s) = a at *
  generalize num % (den * 2 ^ s) = r at *
  have denominator : (0 : ℚ) < den := Nat.cast_pos.mpr positive
  have ratio : (num : ℚ) / den = a * 2 ^ s + r / den := by
    rw [← whole]
    push_cast
    field_simp
  have below : (0 : ℚ) ≤ r / den := div_nonneg (Nat.cast_nonneg r) denominator.le
  have above : (r : ℚ) / den < 2 ^ s := by
    rw [div_lt_iff₀ denominator, mul_comm]
    exact_mod_cast remainder
  have lower : (units (s * leadingBit + a) : ℚ) = a * 2 ^ s := by
    rw [lowerUnits]
    push_cast
    rfl
  have upper : (units (s * leadingBit + a + 1) : ℚ) = a * 2 ^ s + 2 ^ s := by
    rw [upperUnits]
    push_cast
    ring
  have rest : (den * 2 ^ s - r : ℕ) / (den : ℚ) = 2 ^ s - r / den := by
    rw [Nat.cast_sub remainder.le]
    push_cast
    field_simp
  rw [distance_of_le (by rw [lower, ratio]; linarith),
    distance_of_ge (by rw [upper, ratio]; linarith), lower, upper, ratio, rest]
  exact ⟨⟨by rw [lower]; linarith, by rw [upper]; linarith⟩, by ring, by ring⟩

/-- Fifty-three bits of a quotient are left by the shift, unless it has no more anyway. -/
theorem quotient_bounds (num den : Nat) :
    num / (den * 2 ^ ((num / den).log2 - 52)) < 2 * leadingBit ∧
      ((num / den).log2 - 52 = 0 ∨
        leadingBit ≤ num / (den * 2 ^ ((num / den).log2 - 52))) := by
  rw [← Nat.div_div_eq_div_mul]
  generalize num / den = k
  have full : 2 * leadingBit = 2 ^ 53 := by decide
  have half : leadingBit = 2 ^ 52 := by decide
  rcases Nat.le_total k.log2 52 with short | long
  · rw [Nat.sub_eq_zero_of_le short, pow_zero, Nat.div_one, full]
    exact ⟨Nat.lt_of_lt_of_le Nat.lt_log2_self (Nat.pow_le_pow_right (by omega) (by omega)), .inl rfl⟩
  · have nonzero : k ≠ 0 := by
      rintro rfl
      exact absurd long (by decide)
    rw [full, half, Nat.div_lt_iff_lt_mul (Nat.two_pow_pos _), Nat.le_div_iff_mul_le (Nat.two_pow_pos _),
      ← pow_add, ← pow_add, show 53 + (k.log2 - 52) = k.log2 + 1 by omega,
      show 52 + (k.log2 - 52) = k.log2 by omega]
    exact ⟨Nat.lt_log2_self, .inr (Nat.log2_self_le nonzero)⟩

theorem nearest_of_ratio {num den : Nat} {u : ℚ} (positive : 0 < den) (ratio : u = num / den) :
    Nearest u (((num / den).log2 - 52) * leadingBit +
      roundHalfEven num (den * 2 ^ ((num / den).log2 - 52))) := by
  subst ratio
  obtain ⟨bounded, normal⟩ := quotient_bounds num den
  generalize (num / den).log2 - 52 = s at *
  obtain ⟨between, lower, upper⟩ := between_of_ratio positive bounded normal
  have denominator : (0 : ℚ) < den := Nat.cast_pos.mpr positive
  have parity : ∀ a, (s * leadingBit + a) % 2 = a % 2 := by
    intro a
    have evenBit : leadingBit % 2 = 0 := rfl
    rw [Nat.add_mod, Nat.mul_mod, evenBit, Nat.mul_zero, Nat.zero_mod, Nat.zero_add, Nat.mod_mod]
  have remainder := Nat.mod_lt num (Nat.mul_pos positive (Nat.two_pow_pos s))
  -- Both distances have the same denominator, so that twice the remainder decides.
  rcases roundHalfEven_cases num (den * 2 ^ s) with ⟨rounded, closer, even⟩ | ⟨rounded, closer, even⟩
  · rw [rounded]
    apply nearest_of_closer between
    · rw [lower, upper, div_le_div_iff_of_pos_right denominator, Nat.cast_le]
      omega
    · intro tie
      rw [lower, upper, div_left_inj' denominator.ne', Nat.cast_inj] at tie
      rw [parity]
      exact even (by omega)
  · rw [rounded, ← Nat.add_assoc]
    apply nearest_succ_of_closer between
    · rw [lower, upper, div_le_div_iff_of_pos_right denominator, Nat.cast_le]
      omega
    · intro tie
      rw [lower, upper, div_left_inj' denominator.ne', Nat.cast_inj] at tie
      rw [Nat.add_assoc, parity]
      exact even (by omega)

/-! ## The range of exponents -/

theorem units_infinity : (units infinityBits : ℚ) = 2 ^ 2098 := by
  have place : infinityBits = 2045 * leadingBit + 2 * leadingBit := by decide
  have full : 2 * leadingBit = 2 ^ 53 := by decide
  rw [place, units_add (Nat.le_refl _) (.inr (by decide)), full, ← pow_add, Nat.cast_pow,
    Nat.cast_ofNat]

theorem units_largest : (units (infinityBits - 1) : ℚ) = 2 ^ 2098 - 2 * 2 ^ 2044 := by
  have place : infinityBits - 1 = 2045 * leadingBit + (2 * leadingBit - 1) := by decide
  have full : 2 * leadingBit - 1 + 1 = 2 ^ 53 := by decide
  have next : units (infinityBits - 1) + 2 * 2 ^ 2044 = 2 ^ 2098 := by
    rw [place, units_add (Nat.sub_le _ _) (.inr (by decide)), ← pow_succ', ← Nat.succ_mul,
      Nat.succ_eq_add_one, full, ← pow_add]
  have summed := congrArg (Nat.cast (R := ℚ)) next
  rw [Nat.cast_add, Nat.cast_mul, Nat.cast_pow, Nat.cast_pow, Nat.cast_ofNat] at summed
  exact eq_sub_of_add_eq summed

theorem lt_overflow_iff {q : ℚ} : q < overflow ↔ q * perOne < 2 ^ 2098 - 2 ^ 2044 := by
  have scaled : overflow * perOne = 2 ^ 2098 - 2 ^ 2044 := by
    rw [overflow, perOne, sub_mul, ← pow_add, ← pow_add]
  rw [← scaled, mul_lt_mul_iff_left₀ perOne_pos]

namespace Nearest

variable {q u : ℚ} {n : Nat}

/-- A fraction that overflows is nearest to infinity or beyond. The tie halfway goes to infinity,
    since the largest finite number is odd. -/
theorem infinity_le (nearest : Nearest (q * perOne) n) (large : overflow ≤ q) :
    infinityBits ≤ n := by
  rw [← not_lt, lt_overflow_iff] at large
  generalize q * perOne = u at nearest large
  have infinite := units_infinity
  have largest := units_largest
  have gap : (0 : ℚ) < 2 ^ 2044 := by positivity
  generalize (2 : ℚ) ^ 2098 = top at *
  generalize (2 : ℚ) ^ 2044 = half at *
  by_contra finite
  have last : (units n : ℚ) ≤ units (infinityBits - 1) :=
    Nat.cast_le.mpr (units_strictMono.monotone (Nat.le_sub_one_of_lt (Nat.lt_of_not_le finite)))
  have least := nearest.least infinityBits
  rw [distance_of_le (by linarith)] at least
  rcases le_total u top with below | above
  · rw [distance_of_ge (by linarith), infinite] at least
    have tie : distance u n = distance u infinityBits := by
      rw [distance_of_le (by linarith), distance_of_ge (by linarith)]
      linarith
    have even := nearest.even infinityBits (by omega) tie
    have same : units n = units (infinityBits - 1) := by
      exact_mod_cast (by linarith : (units n : ℚ) = units (infinityBits - 1))
    rw [units_strictMono.injective same] at even
    exact absurd even (by decide)
  · rw [distance_of_le (by linarith), infinite] at least
    linarith

theorem lt_infinity (nearest : Nearest (q * perOne) n) (small : q < overflow) :
    n < infinityBits := by
  rw [lt_overflow_iff] at small
  generalize q * perOne = u at nearest small
  have infinite := units_infinity
  have largest := units_largest
  have gap : (0 : ℚ) < 2 ^ 2044 := by positivity
  generalize (2 : ℚ) ^ 2098 = top at *
  generalize (2 : ℚ) ^ 2044 = half at *
  by_contra beyond
  have above : (units infinityBits : ℚ) ≤ units n :=
    Nat.cast_le.mpr (units_strictMono.monotone (Nat.le_of_not_lt beyond))
  -- The largest finite number would be nearer.
  have least := nearest.least (infinityBits - 1)
  rw [distance_of_ge (by linarith)] at least
  rcases le_total u (units (infinityBits - 1)) with lower | higher
  · rw [distance_of_ge lower] at least
    linarith
  · rw [distance_of_le higher] at least
    linarith

/-- Up to half a unit the nearest number is zero, to which a tie goes as well. -/
theorem eq_zero (nearest : Nearest u n) (nonneg : 0 ≤ u) (small : u ≤ 1 / 2) : n = 0 := by
  by_contra nonzero
  have first : (units 0 : ℚ) = 0 := rfl
  have second : (units 1 : ℚ) = 1 := rfl
  have above : (units 1 : ℚ) ≤ units n :=
    Nat.cast_le.mpr (units_strictMono.monotone (Nat.one_le_iff_ne_zero.mpr nonzero))
  have least := nearest.least 0
  rw [distance_of_ge (by linarith), distance_of_le (by linarith)] at least
  have tie : distance u n = distance u 0 := by
    rw [distance_of_ge (by linarith), distance_of_le (by linarith)]
    linarith
  have even := nearest.even 0 (Ne.symm nonzero) tie
  have same : units n = units 1 := by
    exact_mod_cast (by linarith : (units n : ℚ) = units 1)
  rw [units_strictMono.injective same] at even
  exact absurd even (by decide)

end Nearest

/-! ## Rounding -/

theorem magnitude_ofNat {n : Nat} (bounded : n ≤ infinityBits) :
    magnitude ⟨UInt64.ofNat n⟩ = n ∧ isNegative ⟨UInt64.ofNat n⟩ = false := by
  have below : infinityBits < signBit := by decide
  have word : signBit < UInt64.size := by decide
  have bits : (UInt64.ofNat n).toNat = n := UInt64.toNat_ofNat_of_lt' (by omega)
  constructor
  · rw [magnitude, bits, Nat.mod_eq_of_lt (by omega)]
  · rw [isNegative, bits, decide_eq_false (by omega)]

theorem significand_mod_two (x : Binary64) : x.significand % 2 = x.magnitude % 2 := by
  have evenBit : 2 ∣ leadingBit := ⟨leadingBit / 2, by decide⟩
  unfold significand
  split
  · rfl
  · rw [Nat.add_mod, Nat.mod_mod_of_dvd _ evenBit, Nat.mod_eq_zero_of_dvd evenBit, Nat.add_zero,
      Nat.mod_mod]

/-- How far a number is from a fraction, in units. -/
theorem distance_magnitude {q : ℚ} {x : Binary64} (unsigned : x.isNegative = false) :
    distance (q * perOne) x.magnitude = |x.toRat - q| * perOne := by
  rw [distance, toRat_eq unsigned]
  calc |units x.magnitude - q * perOne|
      = |(units x.magnitude / perOne - q) * perOne| := by
        rw [sub_mul, div_mul_cancel₀ _ perOne_pos.ne']
    _ = |units x.magnitude / perOne - q| * perOne := by rw [abs_mul, abs_of_pos perOne_pos]

/-- A number is as far from a fraction that is not negative as some number of the count, or
    farther. -/
theorem exists_nearer {q : ℚ} (nonneg : 0 ≤ q) (y : Binary64) :
    ∃ m, distance (q * perOne) m ≤ |y.toRat - q| * perOne ∧
      (distance (q * perOne) m = |y.toRat - q| * perOne → y.toRat = units m / perOne) := by
  cases sign : y.isNegative with
  | false => exact ⟨y.magnitude, (distance_magnitude sign).le, fun _ => toRat_eq sign⟩
  | true =>
    -- Zero is nearer than every other number that is not positive.
    have size : 0 ≤ (units y.magnitude : ℚ) / perOne := div_nonneg (Nat.cast_nonneg _) perOne_pos.le
    have value : y.toRat = -(units y.magnitude / perOne) := by
      rw [toRat, if_pos sign, ← significand_mul_shift]
      push_cast
      ring
    have far : |y.toRat - q| = units y.magnitude / perOne + q := by
      rw [value, abs_of_nonpos (by linarith)]
      ring
    have none : (units 0 : ℚ) = 0 := rfl
    have zero : distance (q * perOne) 0 = q * perOne := by
      rw [distance_of_le (by rw [none]; exact mul_nonneg nonneg perOne_pos.le), none, sub_zero]
    refine ⟨0, ?_, fun same => ?_⟩
    · rw [zero, far]
      exact mul_le_mul_of_nonneg_right (by linarith) perOne_pos.le
    · rw [zero, far, mul_left_inj' perOne_pos.ne'] at same
      rw [value, none, zero_div, neg_eq_zero]
      linarith

theorem mul_perOne_le_half {q : ℚ} (small : q ≤ underflow) : q * perOne ≤ 1 / 2 := by
  calc q * perOne ≤ underflow * perOne := mul_le_mul_of_nonneg_right small perOne_pos.le
    _ = 1 / 2 := by rw [underflow, pow_succ, ← perOne]; field_simp [perOne_pos.ne']

theorem roundsTo_of_nearest {q : ℚ} {n : Nat} (nonneg : 0 ≤ q) (nearest : Nearest (q * perOne) n) :
    RoundsTo q ⟨UInt64.ofNat (min n infinityBits)⟩ := by
  obtain ⟨magnitude_eq, unsigned⟩ := magnitude_ofNat (Nat.min_le_right n infinityBits)
  have finite : q < overflow → min n infinityBits = n := fun small =>
    Nat.min_eq_left (nearest.lt_infinity small).le
  have toRat_eq' : q < overflow →
      toRat ⟨UInt64.ofNat (min n infinityBits)⟩ = units n / perOne := by
    intro small
    rw [toRat_eq unsigned, magnitude_eq, finite small]
  have distance_eq : q < overflow → |toRat ⟨UInt64.ofNat (min n infinityBits)⟩ - q| * perOne =
      distance (q * perOne) n := by
    intro small
    rw [← distance_magnitude unsigned, magnitude_eq, finite small]
  constructor
  case number =>
    rw [isNaN, magnitude_eq]
    exact decide_eq_false (Nat.not_lt.mpr (Nat.min_le_right _ _))
  case unsigned => exact unsigned
  case zero =>
    intro small
    rw [nearest.eq_zero (mul_nonneg nonneg perOne_pos.le) (mul_perOne_le_half small), Nat.zero_min]
    rfl
  case infinity =>
    intro large
    rw [Nat.min_eq_right (nearest.infinity_le large)]
  case finite =>
    intro small
    rw [IsFinite, magnitude_eq, finite small]
    exact nearest.lt_infinity small
  case nearest =>
    intro small y _
    obtain ⟨m, nearer, _⟩ := exists_nearer nonneg y
    rw [← mul_le_mul_iff_left₀ perOne_pos, distance_eq small]
    exact (nearest.least m).trans nearer
  case even =>
    intro small y _ other tie
    obtain ⟨m, nearer, attained⟩ := exists_nearer nonneg y
    rw [← mul_left_inj' perOne_pos.ne', distance_eq small] at tie
    have same : distance (q * perOne) m = |y.toRat - q| * perOne :=
      le_antisymm nearer (tie ▸ nearest.least m)
    rw [significand_mod_two, magnitude_eq, finite small]
    refine nearest.even m ?_ (tie.trans same.symm)
    rintro rfl
    exact other ((attained same).trans (toRat_eq' small).symm)

theorem ofRatio_roundsTo {num den : Nat} (positive : 0 < den) :
    RoundsTo (num / den) (ofRatio num den) := by
  -- The power is a variable here, so that nothing tries to compute it.
  have scaled : ∀ k : ℕ, perOne = 2 ^ k →
      (num : ℚ) / den * perOne = (num * Nat.pow 2 k : ℕ) / den := by
    intro k one
    rw [one, Nat.pow_eq, Nat.cast_mul, Nat.cast_pow, Nat.cast_ofNat, mul_div_right_comm]
  apply roundsTo_of_nearest (div_nonneg (Nat.cast_nonneg _) (Nat.cast_nonneg _))
  apply nearest_of_ratio positive
  apply scaled
  rfl

theorem roundsTo_zero {q : ℚ} (nonneg : 0 ≤ q) (small : q ≤ underflow) : RoundsTo q ⟨0⟩ := by
  have half := mul_perOne_le_half small
  have scaled : 0 ≤ q * perOne := mul_nonneg nonneg perOne_pos.le
  have first : (units 0 : ℚ) = 0 := rfl
  have second : (units 1 : ℚ) = 1 := rfl
  have between : Between (q * perOne) 0 := ⟨by linarith, by rw [second]; linarith⟩
  refine roundsTo_of_nearest nonneg (nearest_of_closer between ?_ fun _ => rfl)
  rw [distance_of_le between.lower, distance_of_ge between.upper]
  linarith

theorem roundsTo_infinity {q : ℚ} (large : overflow ≤ q) :
    RoundsTo q ⟨UInt64.ofNat infinityBits⟩ := by
  have apart : underflow < overflow := by
    calc underflow ≤ 1 := div_le_one_of_le₀ (one_le_pow₀ (by norm_num)) (by positivity)
      _ < 2 ^ 970 := one_lt_pow₀ (by norm_num) (by norm_num)
      _ ≤ 2 ^ 1024 - 2 ^ 970 := by
        rw [le_sub_iff_add_le, ← two_mul, ← pow_succ']
        exact pow_le_pow_right₀ (by norm_num) (by norm_num)
  constructor
  case number | unsigned => decide
  case zero => exact fun small => absurd small (apart.trans_le large).not_ge
  case infinity => exact fun _ => rfl
  case finite | nearest | even => exact fun small => absurd small large.not_gt

/-! ## One number for each fraction -/

theorem eq_of_magnitude {x y : Binary64} (unsigned : x.isNegative = false)
    (unsigned' : y.isNegative = false) (same : x.magnitude = y.magnitude) : x = y := by
  have bits : ∀ z : Binary64, z.isNegative = false → z.magnitude = z.bits.toNat := by
    intro z positive
    exact Nat.mod_eq_of_lt (Nat.lt_of_not_le (of_decide_eq_false positive))
  rw [bits x unsigned, bits y unsigned', UInt64.toNat_inj] at same
  cases x
  cases y
  exact congrArg Binary64.mk same

/-- Two numbers to which a fraction rounds are not both even, and hence not different: a number
    between them would be nearer. -/
theorem RoundsTo.not_lt {q : ℚ} {x y : Binary64} (first : RoundsTo q x) (second : RoundsTo q y)
    (small : q < overflow) : ¬ x.magnitude < y.magnitude := by
  intro less
  have finite : y.magnitude < infinityBits := second.finite small
  have tie : |x.toRat - q| = |y.toRat - q| :=
    le_antisymm (first.nearest small y finite) (second.nearest small x (first.finite small))
  have apart : x.toRat ≠ y.toRat := by
    rw [toRat_eq first.unsigned, toRat_eq second.unsigned]
    exact fun same => (cast_units_lt less).ne ((div_left_inj' perOne_pos.ne').mp same)
  have even := first.even small y finite apart.symm tie
  have even' := second.even small x (first.finite small) apart tie.symm
  rw [significand_mod_two] at even even'
  -- The number next to `x` comes before `y`, which is even as well.
  obtain ⟨magnitude_eq, unsigned⟩ := magnitude_ofNat (n := x.magnitude + 1) (by omega)
  have nearest := first.nearest small ⟨UInt64.ofNat (x.magnitude + 1)⟩
    (by rw [IsFinite, magnitude_eq]; omega)
  rw [← mul_le_mul_iff_left₀ perOne_pos, ← distance_magnitude first.unsigned,
    ← distance_magnitude unsigned, magnitude_eq] at nearest
  rw [← mul_left_inj' perOne_pos.ne', ← distance_magnitude first.unsigned,
    ← distance_magnitude second.unsigned] at tie
  have nearer := distance_lt_of_between (Nat.lt_succ_self x.magnitude) (by omega) tie
  exact nearer.not_ge nearest

/-- A fraction rounds to one number only. -/
theorem RoundsTo.unique {q : ℚ} {x y : Binary64} (first : RoundsTo q x) (second : RoundsTo q y) :
    x = y := by
  rcases lt_or_ge q overflow with small | large
  · apply eq_of_magnitude first.unsigned second.unsigned
    exact Nat.le_antisymm (Nat.le_of_not_lt (second.not_lt first small))
      (Nat.le_of_not_lt (first.not_lt second small))
  · rw [first.infinity large, second.infinity large]

end Binary64

/-! ## Decimals -/

namespace Decimal

/-- The fraction that a decimal stands for. -/
def toRat (d : Decimal) : ℚ :=
  d.digits * 10 ^ d.exponent

variable {d : Decimal}

theorem toRat_nonneg (d : Decimal) : 0 ≤ d.toRat :=
  mul_nonneg (Nat.cast_nonneg _) (zpow_nonneg (by norm_num) _)

theorem overflow_le_toRat (nonzero : d.digits ≠ 0) (large : 310 ≤ d.exponent) :
    Binary64.overflow ≤ d.toRat := by
  have powers : (2 : ℕ) ^ 1024 ≤ 10 ^ 310 := by decide +kernel
  have digits : (1 : ℚ) ≤ d.digits := Nat.one_le_cast.mpr (Nat.one_le_iff_ne_zero.mpr nonzero)
  calc Binary64.overflow ≤ 2 ^ 1024 := sub_le_self _ (by positivity)
    _ ≤ (10 : ℚ) ^ (310 : ℤ) := by exact_mod_cast powers
    _ ≤ 10 ^ d.exponent := zpow_le_zpow_right₀ (by norm_num) large
    _ ≤ d.toRat := le_mul_of_one_le_left (zpow_nonneg (by norm_num) _) digits

/-- A number has no more decimal digits than binary ones. -/
theorem toRat_le_underflow (small : d.exponent + d.digits.log2 + 1 ≤ -324) :
    d.toRat ≤ Binary64.underflow := by
  have powers : (2 : ℕ) ^ 1075 ≤ 10 ^ 324 := by decide +kernel
  have digits : (d.digits : ℚ) ≤ 10 ^ ((d.digits.log2 : ℤ) + 1) := by
    have short : d.digits ≤ 10 ^ (d.digits.log2 + 1) :=
      Nat.le_of_lt (Nat.lt_of_lt_of_le Nat.lt_log2_self (Nat.pow_le_pow_left (by omega) _))
    exact_mod_cast short
  calc d.toRat ≤ 10 ^ ((d.digits.log2 : ℤ) + 1) * 10 ^ d.exponent :=
        mul_le_mul_of_nonneg_right digits (zpow_nonneg (by norm_num) _)
    _ = (10 : ℚ) ^ ((d.digits.log2 : ℤ) + 1 + d.exponent) := (zpow_add₀ (by norm_num) _ _).symm
    _ ≤ 10 ^ (-324 : ℤ) := zpow_le_zpow_right₀ (by norm_num) (by omega)
    _ = 1 / 10 ^ 324 := by rw [zpow_neg, one_div]; rfl
    _ ≤ 1 / 2 ^ 1075 := one_div_le_one_div_of_le (by positivity) (by exact_mod_cast powers)

theorem nearest_roundsTo (d : Decimal) : Binary64.RoundsTo d.toRat d.nearest := by
  unfold nearest
  split
  · next zero =>
    have nothing : d.toRat = 0 := by simp [toRat, eq_of_beq zero]
    rw [nothing]
    exact Binary64.roundsTo_zero (le_refl 0) (by rw [Binary64.underflow]; positivity)
  split
  · next nonzero large =>
    exact Binary64.roundsTo_infinity (overflow_le_toRat (by simpa using nonzero) large)
  split
  · next small => exact Binary64.roundsTo_zero d.toRat_nonneg (toRat_le_underflow small)
  split
  · next whole =>
    have value : d.toRat = (d.digits * Nat.pow 10 d.exponent.toNat : ℕ) / (1 : ℕ) := by
      rw [Nat.cast_one, div_one, Nat.pow_eq, Nat.cast_mul, Nat.cast_pow, Nat.cast_ofNat,
        ← zpow_natCast, Int.toNat_of_nonneg whole, toRat]
    rw [value]
    exact Binary64.ofRatio_roundsTo one_pos
  · next fractional =>
    have value : d.toRat = d.digits / (Nat.pow 10 (-d.exponent).toNat : ℕ) := by
      rw [Nat.pow_eq, Nat.cast_pow, Nat.cast_ofNat, ← zpow_natCast,
        Int.toNat_of_nonneg (by omega), zpow_neg, div_inv_eq_mul, toRat]
    rw [value]
    exact Binary64.ofRatio_roundsTo (Nat.pow_pos (by omega))

end Decimal

end CurveScript
