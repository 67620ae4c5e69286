import Mathlib.Data.Rat.Cast.Order
import Mathlib.Tactic.FieldSimp
import Mathlib.Tactic.Linarith
import Mathlib.Tactic.NormNum
import Mathlib.Tactic.Positivity
import Mathlib.Tactic.Ring
import PageInliner.Size

/-!
# Sizes rounded

A ratio is rounded to the whole number nearest to it, and a half to the even one of its two neighbours. There is only one
such number and a larger ratio has no smaller one, so sizes keep their order through both roundings: to 53
significant bits, and to tenths of a kilobyte.
-/

set_option autoImplicit false

namespace PageInliner.Size

/-- The whole number nearest to an exact one; of two that are equally near, the even one. -/
structure IsNearest (exact : ℚ) (whole : ℕ) : Prop where
  near : |exact - whole| ≤ 1 / 2
  even : |exact - whole| = 1 / 2 → Even whole

namespace IsNearest

variable {first second : ℚ} {firstWhole secondWhole : ℕ}

theorem mono (order : first ≤ second) (firstNearest : IsNearest first firstWhole)
    (secondNearest : IsNearest second secondWhole) : firstWhole ≤ secondWhole := by
  by_contra above
  have apart : (secondWhole : ℚ) + 1 ≤ firstWhole := by
    exact_mod_cast Nat.lt_of_not_le above
  obtain ⟨firstBelow, firstAbove⟩ := abs_le.mp firstNearest.near
  obtain ⟨secondBelow, secondAbove⟩ := abs_le.mp secondNearest.near
  -- The two can only change places if both are halves, between the same two neighbours.
  have neighbours : (firstWhole : ℚ) = secondWhole + 1 := by linarith
  have firstHalf : |first - firstWhole| = 1 / 2 := by
    rw [abs_of_nonpos (by linarith)]
    linarith
  have secondHalf : |second - secondWhole| = 1 / 2 := by
    rw [abs_of_nonneg (by linarith)]
    linarith
  have same : firstWhole = secondWhole + 1 := by exact_mod_cast neighbours
  have firstEven := firstNearest.even firstHalf
  rw [same, Nat.even_add_one] at firstEven
  exact firstEven (secondNearest.even secondHalf)

theorem unique (firstNearest : IsNearest first firstWhole) (secondNearest : IsNearest first secondWhole) :
    firstWhole = secondWhole :=
  Nat.le_antisymm (firstNearest.mono le_rfl secondNearest) (secondNearest.mono le_rfl firstNearest)

theorem self (whole : ℕ) : IsNearest whole whole where
  near := by norm_num
  even half := by norm_num at half

end IsNearest

theorem roundDiv_isNearest (numerator : ℕ) {denominator : ℕ} (positive : 0 < denominator) :
    IsNearest (numerator / denominator) (roundDiv numerator denominator) := by
  let quotient := numerator / denominator
  let rest := numerator % denominator
  let share : ℚ := rest / denominator
  have whole : (0 : ℚ) < denominator := by exact_mod_cast positive
  have parts : (numerator : ℚ) / denominator = quotient + share := by
    rw [div_eq_iff whole.ne', add_mul, div_mul_cancel₀ _ whole.ne', mul_comm]
    exact_mod_cast (Nat.div_add_mod numerator denominator).symm
  have notNegative : 0 ≤ share := by positivity
  have lessThanOne : share < 1 := by
    rw [div_lt_one whole]
    exact_mod_cast Nat.mod_lt numerator positive
  have half_iff : share = 1 / 2 ↔ 2 * rest = denominator := by
    rw [div_eq_iff whole.ne', ← @Nat.cast_inj ℚ]
    push_cast
    constructor <;> intro same <;> linarith
  have above_iff : 1 / 2 < share ↔ denominator < 2 * rest := by
    rw [lt_div_iff₀ whole, ← @Nat.cast_lt ℚ]
    push_cast
    constructor <;> intro less <;> linarith
  rw [parts]
  by_cases up : denominator < 2 * rest ∨ 2 * rest = denominator ∧ quotient % 2 = 1
  · have rounded : roundDiv numerator denominator = quotient + 1 :=
      if_pos (by simpa [quotient, rest] using up)
    have half : 1 / 2 ≤ share := by
      obtain above | ⟨exactly, _⟩ := up
      · exact (above_iff.mpr above).le
      · exact (half_iff.mpr exactly).ge
    have distance : |(quotient : ℚ) + share - (quotient + 1 : ℕ)| = 1 - share := by
      rw [abs_of_nonpos (by push_cast; linarith)]
      push_cast
      ring
    rw [rounded]
    refine ⟨by rw [distance]; linarith, ?_⟩
    intro tie
    rw [distance] at tie
    have exactly := half_iff.mp (by linarith)
    have odd : quotient % 2 = 1 := by omega
    rw [Nat.even_add_one, Nat.not_even_iff]
    exact odd
  · have rounded : roundDiv numerator denominator = quotient :=
      if_neg (by simpa [quotient, rest] using up)
    have half : share ≤ 1 / 2 := by
      by_contra above
      exact up (.inl (above_iff.mp (not_le.mp above)))
    have distance : |(quotient : ℚ) + share - quotient| = share := by
      rw [add_sub_cancel_left, abs_of_nonneg notNegative]
    rw [rounded]
    refine ⟨by rw [distance]; exact half, ?_⟩
    intro tie
    rw [distance] at tie
    have exactly := half_iff.mp tie
    rw [Nat.even_iff]
    omega

theorem roundDiv_mono {first second denominator : ℕ} (positive : 0 < denominator) (order : first ≤ second) :
    roundDiv first denominator ≤ roundDiv second denominator := by
  refine IsNearest.mono ?_ (roundDiv_isNearest first positive) (roundDiv_isNearest second positive)
  gcongr

theorem roundDiv_mul (whole : ℕ) {denominator : ℕ} (positive : 0 < denominator) :
    roundDiv (whole * denominator) denominator = whole := by
  have nonzero : (denominator : ℚ) ≠ 0 := by exact_mod_cast positive.ne'
  have exactly := roundDiv_isNearest (whole * denominator) positive
  rw [Nat.cast_mul, mul_div_cancel_right₀ _ nonzero] at exactly
  exact exactly.unique (.self whole)

/-- A number has as many bits beyond the first 53 as it takes to bring it below `2 ^ 53`. -/
theorem excessBits_spec (bytes : ℕ) :
    bytes < 2 ^ (53 + excessBits bytes) ∧ (excessBits bytes = 0 ∨ 2 ^ (52 + excessBits bytes) ≤ bytes) := by
  unfold excessBits
  constructor
  · calc bytes < 2 ^ (bytes.log2 + 1) := Nat.lt_log2_self
      _ ≤ 2 ^ (53 + (bytes.log2 + 1 - 53)) := Nat.pow_le_pow_right (by decide) (by omega)
  · by_cases many : bytes.log2 + 1 ≤ 53
    · exact .inl (by omega)
    · have nonzero : bytes ≠ 0 := by
        intro zero
        simp [zero] at many
      have exponent : 52 + (bytes.log2 + 1 - 53) = bytes.log2 := by omega
      rw [exponent]
      exact .inr (Nat.log2_self_le nonzero)

theorem significant_eq (bytes : ℕ) :
    significant bytes = roundDiv bytes (2 ^ excessBits bytes) * 2 ^ excessBits bytes :=
  rfl

/-- `rounded` is `bytes` rounded to 53 significant bits: the nearest number with as many zeros at its end as
`bytes` has bits beyond the first 53. -/
def IsSignificant (bytes rounded : ℕ) : Prop :=
  ∃ excess digits : ℕ,
    bytes < 2 ^ (53 + excess) ∧ (excess = 0 ∨ 2 ^ (52 + excess) ≤ bytes) ∧
      IsNearest (bytes / 2 ^ excess) digits ∧ rounded = digits * 2 ^ excess

theorem isSignificant_significant (bytes : ℕ) : IsSignificant bytes (significant bytes) := by
  obtain ⟨below, above⟩ := excessBits_spec bytes
  refine ⟨excessBits bytes, _, below, above, ?_, significant_eq bytes⟩
  simpa using roundDiv_isNearest bytes (Nat.two_pow_pos (excessBits bytes))

theorem significant_eq_self {bytes : ℕ} (small : bytes < 2 ^ 53) : significant bytes = bytes := by
  have none : excessBits bytes = 0 := by
    obtain ⟨_, none | above⟩ := excessBits_spec bytes
    · exact none
    · by_contra some
      have large : 2 ^ 53 ≤ 2 ^ (52 + excessBits bytes) := Nat.pow_le_pow_right (by decide) (by omega)
      omega
  rw [significant_eq, none]
  simpa using roundDiv_mul bytes Nat.one_pos

theorem roundDiv_two_pow_le {bytes excess : ℕ} (below : bytes < 2 ^ (53 + excess)) :
    roundDiv bytes (2 ^ excess) ≤ 2 ^ 53 := by
  have most := roundDiv_mono (Nat.two_pow_pos excess) (below.le.trans_eq (pow_add 2 53 excess))
  rwa [roundDiv_mul _ (Nat.two_pow_pos excess)] at most

theorem le_roundDiv_two_pow {bytes excess : ℕ} (above : 2 ^ (52 + excess) ≤ bytes) :
    2 ^ 52 ≤ roundDiv bytes (2 ^ excess) := by
  have least := roundDiv_mono (Nat.two_pow_pos excess) ((pow_add 2 52 excess).symm.trans_le above)
  rwa [roundDiv_mul _ (Nat.two_pow_pos excess)] at least

theorem significant_mono {first second : ℕ} (order : first ≤ second) : significant first ≤ significant second := by
  obtain ⟨firstBelow, firstAbove⟩ := excessBits_spec first
  obtain ⟨secondBelow, secondAbove⟩ := excessBits_spec second
  rw [significant_eq, significant_eq]
  generalize excessBits first = firstExcess at *
  generalize excessBits second = secondExcess at *
  obtain fewer | same | more := Nat.lt_trichotomy firstExcess secondExcess
  · -- Rounded down or up, each stays between the powers of two around it.
    have least : 2 ^ (52 + secondExcess) ≤ second := secondAbove.resolve_left (by omega)
    calc roundDiv first (2 ^ firstExcess) * 2 ^ firstExcess
        ≤ 2 ^ 53 * 2 ^ firstExcess := Nat.mul_le_mul_right _ (roundDiv_two_pow_le firstBelow)
      _ = 2 ^ (53 + firstExcess) := (pow_add 2 53 firstExcess).symm
      _ ≤ 2 ^ (52 + secondExcess) := Nat.pow_le_pow_right (by decide) (by omega)
      _ = 2 ^ 52 * 2 ^ secondExcess := pow_add 2 52 secondExcess
      _ ≤ roundDiv second (2 ^ secondExcess) * 2 ^ secondExcess :=
        Nat.mul_le_mul_right _ (le_roundDiv_two_pow least)
  · subst same
    exact Nat.mul_le_mul_right _ (roundDiv_mono (Nat.two_pow_pos firstExcess) order)
  · have least : 2 ^ (52 + firstExcess) ≤ first := firstAbove.resolve_left (by omega)
    have powers : 2 ^ (53 + secondExcess) ≤ 2 ^ (52 + firstExcess) := Nat.pow_le_pow_right (by decide) (by omega)
    omega

theorem tenths_mono {first second : ℕ} (order : first ≤ second) : tenths first ≤ tenths second :=
  roundDiv_mono (by decide) (Nat.mul_le_mul_left 10 (significant_mono order))

theorem tenths_isNearest (bytes : ℕ) : IsNearest (10 * (significant bytes / 1024)) (tenths bytes) := by
  have exactly : IsNearest ((10 * significant bytes : ℕ) / (1024 : ℕ)) (tenths bytes) :=
    roundDiv_isNearest (10 * significant bytes) (by decide)
  push_cast at exactly
  rwa [mul_div_assoc] at exactly

-- Two and a half tenths, and seven and a half.
example : tenths 256 = 2 ∧ tenths 768 = 8 := by decide

end PageInliner.Size
