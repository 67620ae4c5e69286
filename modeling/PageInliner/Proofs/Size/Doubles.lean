import PageInliner.Proofs.Size.Rounding

/-!
# Double precision

The arithmetic of floating-point numbers of 64 bits, as far as sizes need it. A mantissa that loses its lower bits
keeps two of them, and they are enough to round it to the nearest even one. A whole number is converted with
one such rounding. A division by a power of two keeps the mantissa and is exact.
-/

set_option autoImplicit false

namespace PageInliner.Size

open Float.Model Float.Model.UnpackedFloat

/-!
## Lost bits
-/

/-- The exact number of which a mantissa is the whole part: the round bit is its half, and the sticky bit tells
whether there is anything beyond that. -/
def Represents (extended : ExtendedMantissa) (exact : ℚ) : Prop :=
  ∃ rest : ℚ, exact = extended.mantissa + extended.roundBit.toNat / 2 + rest ∧
    0 ≤ rest ∧ rest < 1 / 2 ∧ (extended.stickyBit = true ↔ 0 < rest)

theorem represents_exact (mantissa : ℕ) : Represents ⟨mantissa, false, false⟩ mantissa :=
  ⟨0, by simp, le_rfl, by norm_num, by simp⟩

namespace Represents

variable {extended : ExtendedMantissa} {exact : ℚ}

theorem shiftRightOne (represents : Represents extended exact) : Represents extended.shiftRightOne (exact / 2) := by
  obtain ⟨mantissa, half, sticky⟩ := extended
  obtain ⟨rest, rfl, notNegative, less, some_iff⟩ := represents
  have parts : (mantissa : ℚ) = 2 * (mantissa / 2 : ℕ) + (mantissa % 2 : ℕ) := by
    exact_mod_cast (Nat.div_add_mod mantissa 2).symm
  have last : (mantissa % 2 != 0).toNat = mantissa % 2 := by
    obtain even | odd := Nat.mod_two_eq_zero_or_one mantissa
    · simp [even]
    · simp [odd]
  refine ⟨(half.toNat / 2 + rest) / 2, ?_, ?_, ?_, ?_⟩
  · simp only [ExtendedMantissa.shiftRightOne, last]
    rw [parts]
    ring
  · positivity
  · cases half <;> norm_num <;> linarith
  · cases half with
    | false => simpa [ExtendedMantissa.shiftRightOne] using some_iff
    | true =>
      simp only [ExtendedMantissa.shiftRightOne, Bool.true_or, true_iff, Bool.toNat_true, Nat.cast_one]
      positivity

theorem shiftRight (represents : Represents extended exact) (excess : ℕ) :
    Represents (extended >>> excess) (exact / 2 ^ excess) := by
  change Represents (excess.repeat ExtendedMantissa.shiftRightOne extended) _
  induction excess with
  | zero => simpa [Nat.repeat] using represents
  | succ excess ih =>
    rw [pow_succ, ← div_div]
    exact ih.shiftRightOne

theorem isNearest (represents : Represents extended exact) : IsNearest exact extended.roundedMantissa := by
  obtain ⟨mantissa, half, sticky⟩ := extended
  obtain ⟨rest, rfl, notNegative, less, some_iff⟩ := represents
  cases half with
  | false =>
    have rounded : ExtendedMantissa.roundedMantissa ⟨mantissa, false, sticky⟩ = mantissa := by
      cases sticky <;> rfl
    have distance : |(mantissa : ℚ) + (0 : ℕ) / 2 + rest - mantissa| = rest := by
      rw [Nat.cast_zero, zero_div, add_zero, add_sub_cancel_left, abs_of_nonneg notNegative]
    rw [rounded]
    exact ⟨distance.trans_le less.le, fun tie => absurd (distance.symm.trans tie) less.ne⟩
  | true =>
    cases sticky with
    | true =>
      have some : 0 < rest := some_iff.mp rfl
      have distance : |(mantissa : ℚ) + (1 : ℕ) / 2 + rest - (mantissa + 1 : ℕ)| = 1 / 2 - rest := by
        push_cast
        rw [abs_of_nonpos (by linarith)]
        ring
      exact ⟨distance.trans_le (by linarith), fun tie => absurd (distance.symm.trans tie) (by linarith)⟩
    | false =>
      have none : rest = 0 := by
        refine le_antisymm (not_lt.mp ?_) notNegative
        intro some
        exact Bool.false_ne_true (some_iff.mpr some)
      have rounded : ExtendedMantissa.roundedMantissa ⟨mantissa, true, false⟩ = mantissa + mantissa % 2 := rfl
      subst none
      rw [rounded]
      refine ⟨?_, ?_⟩
      · obtain even | odd := Nat.mod_two_eq_zero_or_one mantissa
        · rw [even]
          norm_num
        · rw [odd]
          norm_num
      · intro _
        rw [Nat.even_iff]
        omega

end Represents

theorem roundedMantissa_shiftRight (mantissa excess : ℕ) :
    ((⟨mantissa, false, false⟩ : ExtendedMantissa) >>> excess).roundedMantissa = roundDiv mantissa (2 ^ excess) := by
  have exactly := roundDiv_isNearest mantissa (Nat.two_pow_pos excess)
  push_cast at exactly
  exact ((represents_exact mantissa).shiftRight excess).isNearest.unique exactly

theorem mantissa_shiftRight (extended : ExtendedMantissa) (excess : ℕ) :
    (extended >>> excess).mantissa = extended.mantissa / 2 ^ excess := by
  change (excess.repeat ExtendedMantissa.shiftRightOne extended).mantissa = _
  induction excess with
  | zero => simp [Nat.repeat]
  | succ excess ih =>
    rw [pow_succ, ← Nat.div_div_eq_div_mul, ← ih]
    rfl

/-!
## Rounding
-/

theorem targetExponent_eq {total target : ℤ} (digits : total = 53 + target) (room : -1074 ≤ target) :
    Format.binary64.targetExponent total = target := by
  have full : Format.binary64.mantissaBits = 53 := rfl
  have least : Format.binary64.minExponent = -1074 := rfl
  rw [Format.targetExponent, full, least]
  omega

theorem shiftToTargetExponent_exact {mantissa excess : ℕ} {exponent : ℤ} (length : mantissa.log2 = 52 + excess)
    (room : -1074 ≤ exponent + excess) :
    shiftToTargetExponent .binary64 mantissa exponent .exact =
      ((⟨mantissa, false, false⟩ : ExtendedMantissa) >>> excess, exponent + excess) := by
  have target : Format.binary64.targetExponent (totalExponent mantissa exponent) = exponent + excess :=
    targetExponent_eq (by unfold totalExponent; omega) room
  have shift : (exponent + excess - exponent).toNat = excess := by omega
  simp only [shiftToTargetExponent, shiftToExponent, target, shift]
  rfl

theorem log2_mul_two_pow {value : ℕ} (positive : 0 < value) (excess : ℕ) :
    (value * 2 ^ excess).log2 = value.log2 + excess := by
  rw [Nat.log2_eq_iff (by positivity), add_right_comm, pow_add, pow_add 2 (value.log2 + 1)]
  exact ⟨Nat.mul_le_mul_right _ (Nat.log2_self_le positive.ne'),
    Nat.mul_lt_mul_of_pos_right Nat.lt_log2_self (Nat.two_pow_pos excess)⟩

theorem finite_eq {sign : Sign} {first second : ℕ} {exponent other : ℤ} {some : 0 < first} {positive : 0 < second}
    (mantissas : first = second) (exponents : exponent = other) :
    UnpackedFloat.finite sign first exponent some = .finite sign second other positive := by
  subst mantissas exponents
  rfl

theorem roundWithAccuracy_exact {mantissa excess digits carry : ℕ} {exponent target : ℤ} (sign : Sign)
    (length : mantissa.log2 = 52 + excess) (rounded : roundDiv mantissa (2 ^ excess) = digits * 2 ^ carry)
    (positive : 0 < digits) (full : digits.log2 = 52) (room : -1074 ≤ exponent + excess)
    (exponents : exponent + excess + carry = target) :
    roundWithAccuracy .binary64 sign mantissa exponent .exact = .finite sign digits target positive := by
  have first := shiftToTargetExponent_exact length room
  have carried : (digits * 2 ^ carry).log2 = 52 + carry := by
    rw [log2_mul_two_pow positive, full]
  have second : shiftToTargetExponent .binary64 _ (exponent + excess) .exact = _ :=
    shiftToTargetExponent_exact carried (by omega)
  have last : ((⟨digits * 2 ^ carry, false, false⟩ : ExtendedMantissa) >>> carry).mantissa = digits := by
    rw [mantissa_shiftRight, Nat.mul_div_cancel _ (Nat.two_pow_pos carry)]
  rw [roundWithAccuracy, first]
  dsimp only
  rw [roundedMantissa_shiftRight, rounded, second, dif_neg (ne_of_eq_of_ne last positive.ne')]
  exact finite_eq last exponents

/-- A division by a power of two leaves the mantissa as it is. -/
theorem div_two_pow {mantissa : ℕ} {exponent scale : ℤ} {positive : 0 < mantissa} (full : mantissa.log2 = 52)
    (room : -1073 ≤ exponent - scale) :
    UnpackedFloat.div .binary64 (.finite .positive mantissa exponent positive)
        (.finite .positive (2 ^ 52) (scale - 52) (by decide)) =
      .finite .positive mantissa (exponent - scale) positive := by
  have target : Format.binary64.targetExponent
      (totalExponent mantissa exponent - totalExponent (2 ^ 52) (scale - 52)) = exponent - scale - 1 := by
    refine targetExponent_eq ?_ (by omega)
    simp only [totalExponent, Nat.log2_two_pow, full]
    omega
  have lower : min (exponent - (scale - 52)) (exponent - scale - 1) = exponent - scale - 1 := by omega
  have shift : (exponent - (scale - 52) - (exponent - scale - 1)).toNat = 53 := by omega
  have shifted : mantissa <<< 53 = mantissa * 2 ^ 1 * 2 ^ 52 := by
    rw [Nat.shiftLeft_eq, mul_assoc, ← pow_add]
  -- The quotient has a digit too many, a zero, and rounding takes it away.
  have core : divCore .binary64 mantissa exponent (2 ^ 52) (scale - 52) =
      (mantissa * 2 ^ 1, exponent - scale - 1, .exact) := by
    simp only [divCore, target, lower, shift, shifted, Nat.mul_mod_left, Nat.mul_div_cancel _ (Nat.two_pow_pos 52)]
    rfl
  have halved : roundDiv (mantissa * 2 ^ 1) (2 ^ 1) = mantissa * 2 ^ 0 := by
    rw [roundDiv_mul mantissa (Nat.two_pow_pos 1), pow_zero, mul_one]
  have length := log2_mul_two_pow positive 1
  rw [full] at length
  have spelled : UnpackedFloat.div .binary64 (.finite .positive mantissa exponent positive)
      (.finite .positive (2 ^ 52) (scale - 52) (by decide)) =
        let (quotient, lowest, accuracy) := divCore .binary64 mantissa exponent (2 ^ 52) (scale - 52)
        roundWithAccuracy .binary64 .positive quotient lowest accuracy := rfl
  rw [spelled, core]
  exact roundWithAccuracy_exact .positive length halved positive full (by push_cast; omega) (by push_cast; omega)

/-- A number rounded to 53 digits has as many, or it is the next power of two. -/
theorem exists_carry {rounded : ℕ} (least : 2 ^ 52 ≤ rounded) (most : rounded ≤ 2 ^ 53) :
    ∃ mantissa carry : ℕ, rounded = mantissa * 2 ^ carry ∧ 0 < mantissa ∧ mantissa.log2 = 52 ∧ carry ≤ 1 := by
  obtain less | same := Nat.lt_or_eq_of_le most
  · have nonzero : rounded ≠ 0 := by omega
    exact ⟨rounded, 0, by simp, by omega, (Nat.log2_eq_iff nonzero).mpr ⟨least, less⟩, by omega⟩
  · exact ⟨2 ^ 52, 1, same, Nat.two_pow_pos 52, Nat.log2_two_pow, le_rfl⟩

theorem significant_shifted (value : ℕ) :
    roundDiv (value * 2 ^ (52 - value.log2)) (2 ^ (value.log2 - 52)) * 2 ^ value.log2 =
      significant value * 2 ^ 52 := by
  have excess : excessBits value = value.log2 - 52 := by
    unfold excessBits
    omega
  rw [significant_eq, excess]
  obtain short | long := Nat.le_total value.log2 52
  · have exactly := roundDiv_mul (value * 2 ^ (52 - value.log2)) Nat.one_pos
    have unrounded := roundDiv_mul value Nat.one_pos
    rw [mul_one] at exactly unrounded
    rw [Nat.sub_eq_zero_of_le short, pow_zero, exactly, unrounded, mul_one, mul_assoc, ← pow_add,
      Nat.sub_add_cancel short]
  · rw [Nat.sub_eq_zero_of_le long, pow_zero, mul_one, mul_assoc, ← pow_add, Nat.sub_add_cancel long]

/-- The digits of a whole number as a floating-point number keeps them, 53 of them, and the place of the highest
one. A number that is rounded up may gain a place. -/
structure Digits (whole mantissa position : ℕ) : Prop where
  positive : 0 < mantissa
  full : mantissa.log2 = 52
  highest : position ≤ whole.log2 + 1
  exactly : mantissa * 2 ^ position = significant whole * 2 ^ 52

theorem round_whole {whole : ℕ} (some : 0 < whole) :
    ∃ mantissa position, ∃ digits : Digits whole mantissa position,
      UnpackedFloat.round .binary64 .positive whole 0 =
        .finite .positive mantissa (position - 52) digits.positive := by
  have target : Format.binary64.targetExponent (totalExponent whole 0) = (whole.log2 : ℤ) - 52 :=
    targetExponent_eq (by unfold totalExponent; omega) (by omega)
  have shift : (0 - ((whole.log2 : ℤ) - 52)).toNat = 52 - whole.log2 := by omega
  -- Zeros fill up a short number. A long one loses what is behind its first 53 digits.
  have length : (whole * 2 ^ (52 - whole.log2)).log2 = 52 + (whole.log2 - 52) := by
    rw [log2_mul_two_pow some]
    omega
  have nonzero : whole * 2 ^ (52 - whole.log2) ≠ 0 := by positivity
  obtain ⟨above, below⟩ := (Nat.log2_eq_iff nonzero).mp length
  obtain ⟨mantissa, carry, rounded, positive, full, atMostOne⟩ :=
    exists_carry (le_roundDiv_two_pow above) (roundDiv_two_pow_le (by rwa [add_right_comm] at below))
  have exactly : mantissa * 2 ^ (whole.log2 + carry) = significant whole * 2 ^ 52 := by
    rw [pow_add, mul_left_comm, ← rounded, mul_comm, significant_shifted]
  refine ⟨mantissa, whole.log2 + carry, ⟨positive, full, by omega, exactly⟩, ?_⟩
  have shifted : UnpackedFloat.round .binary64 .positive whole 0 =
      roundWithAccuracy .binary64 .positive (whole * 2 ^ (52 - whole.log2)) (0 - (52 - whole.log2 : ℕ)) .exact := by
    simp only [UnpackedFloat.round, decreaseExponent, target, shift, Nat.shiftLeft_eq]
  rw [shifted]
  exact roundWithAccuracy_exact .positive length rounded positive full (by omega) (by omega)

/-!
## Bits
-/

theorem toNat_packComponents (exponent : BitVec 11) (mantissa : BitVec 52) :
    (packComponents .binary64 .positive exponent mantissa).toNat = exponent.toNat * 2 ^ 52 + mantissa.toNat := by
  have sign : Sign.positive.toBitVec.toNat = 0 := rfl
  rw [packComponents, BitVec.toNat_append, ← Nat.shiftLeft_add_eq_or_of_lt mantissa.isLt, BitVec.toNat_append, sign,
    Nat.zero_shiftLeft, Nat.zero_or, Nat.shiftLeft_eq]

/-- The highest bit is the sign, and it is zero in a positive number. -/
theorem unpackSign_positive (exponent : BitVec 11) (mantissa : BitVec 52) :
    unpackSign (packComponents .binary64 .positive exponent mantissa) = 0#1 := by
  have small : (packComponents .binary64 .positive exponent mantissa).toNat < 2 ^ 63 := by
    rw [toNat_packComponents]
    omega
  have highest : (unpackSign (packComponents .binary64 .positive exponent mantissa)).toNat =
      (packComponents .binary64 .positive exponent mantissa).toNat >>> 63 % 2 := rfl
  apply BitVec.eq_of_toNat_eq
  rw [highest, Nat.shiftRight_eq_div_pow, Nat.div_eq_of_lt small]
  rfl

theorem unpack_of_normal (bits : BitVec 64) (notLargest : @unpackExponent .binary64 bits ≠ -1#11)
    (notLeast : @unpackExponent .binary64 bits ≠ 0#11) :
    ∃ some, UnpackedFloat.unpack .binary64 bits =
      .finite (Sign.ofBitVec (@unpackSign .binary64 bits)) (1#1 ++ @unpackMantissa .binary64 bits).toNat
        ((@unpackExponent .binary64 bits).toNat - (1023 + 52)) some :=
  ⟨_, (if_neg notLargest).trans (if_neg notLeast)⟩

section Normal

variable {mantissa : ℕ} {exponent : ℤ} {positive : 0 < mantissa}

theorem pack_normal (full : mantissa.log2 = 52) (least : -1074 ≤ exponent) (most : exponent ≤ 971) :
    UnpackedFloat.pack .binary64 (.finite .positive mantissa exponent positive) =
      packComponents .binary64 .positive (BitVec.ofNat 11 (exponent + 1075).toNat) (BitVec.ofNat 52 mantissa) := by
  have biased : (exponent + 1023 + 52).toNat = (exponent + 1075).toNat := by omega
  have spelled : UnpackedFloat.pack .binary64 (.finite .positive mantissa exponent positive) =
      if 2 ^ 11 ≤ (exponent + 1023 + 52).toNat + 1 then packedInfinity .binary64 .positive
      else if mantissa.log2 + 1 = 53 then
        packComponents .binary64 .positive (BitVec.ofNat 11 (exponent + 1023 + 52).toNat) (BitVec.ofNat 52 mantissa)
      else packComponents .binary64 .positive 0#11 (BitVec.ofNat 52 mantissa) := rfl
  rw [spelled, if_neg (by omega), if_pos (by omega), biased]

theorem unpack_pack_normal (full : mantissa.log2 = 52) (least : -1074 ≤ exponent) (most : exponent ≤ 971) :
    (Float.Model.pack (.finite .positive mantissa exponent positive)).unpack =
      .finite .positive mantissa exponent positive := by
  obtain ⟨above, below⟩ := (Nat.log2_eq_iff positive.ne').mp full
  have biased : (BitVec.ofNat 11 (exponent + 1075).toNat).toNat = (exponent + 1075).toNat := by
    rw [BitVec.toNat_ofNat]
    omega
  have implicit : (1#1 ++ BitVec.ofNat 52 mantissa).toNat = mantissa := by
    rw [BitVec.toNat_append, ← Nat.shiftLeft_add_eq_or_of_lt (BitVec.isLt _), BitVec.toNat_ofNat, BitVec.toNat_ofNat,
      Nat.shiftLeft_eq]
    omega
  have notLargest : BitVec.ofNat 11 (exponent + 1075).toNat ≠ -1#11 := by
    have largest : (-1#11).toNat = 2047 := rfl
    refine ne_of_apply_ne BitVec.toNat ?_
    rw [biased, largest]
    omega
  have notLeast : BitVec.ofNat 11 (exponent + 1075).toNat ≠ 0#11 := by
    refine ne_of_apply_ne BitVec.toNat ?_
    rw [biased, BitVec.toNat_zero]
    omega
  obtain ⟨some, unpacked⟩ := unpack_of_normal
    (packComponents .binary64 .positive (BitVec.ofNat 11 (exponent + 1075).toNat) (BitVec.ofNat 52 mantissa))
    (by rwa [unpackExponent_packComponents]) (by rwa [unpackExponent_packComponents])
  change UnpackedFloat.unpack .binary64 (UnpackedFloat.pack .binary64 _) = _
  rw [pack_normal full least most, unpacked, unpackSign_positive]
  refine finite_eq ?_ ?_
  · rw [unpackMantissa_packComponents, implicit]
  · rw [unpackExponent_packComponents, biased]
    omega

theorem toBits_pack_normal (full : mantissa.log2 = 52) (least : -1074 ≤ exponent) (most : exponent ≤ 971) :
    (Float.Model.pack (.finite .positive mantissa exponent positive)).toBits.toNat =
      (exponent + 1075).toNat * 2 ^ 52 + (mantissa - 2 ^ 52) := by
  obtain ⟨above, below⟩ := (Nat.log2_eq_iff positive.ne').mp full
  change (UnpackedFloat.pack .binary64 _).toNat = _
  rw [pack_normal full least most, toNat_packComponents, BitVec.toNat_ofNat, BitVec.toNat_ofNat]
  omega

/-- The number for which a floating-point number stands, unless it is infinite or none at all. -/
def value? (float : Float) : Option ℚ :=
  match float.toModel.unpack with
  | .zero _ => some 0
  | .finite sign mantissa exponent _ => some ((sign.apply mantissa : ℤ) * 2 ^ exponent)
  | .infinity _ | .notANumber => none

theorem value?_of_unpack {float : Float}
    (unpacked : float.toModel.unpack = .finite .positive mantissa exponent positive) :
    value? float = some ((mantissa : ℚ) * 2 ^ exponent) := by
  rw [value?, unpacked]
  rfl

end Normal

theorem unpack_toFloat {whole : UInt64} (some : 0 < whole.toNat) :
    ∃ mantissa position, ∃ digits : Digits whole.toNat mantissa position, position ≤ 64 ∧
      whole.toFloat.toModel.unpack = .finite .positive mantissa (position - 52) digits.positive := by
  obtain ⟨mantissa, position, digits, rounded⟩ := round_whole some
  have short : whole.toNat.log2 < 64 := (Nat.log2_lt some.ne').mpr whole.toNat_lt
  have highest := digits.highest
  have converted : UnpackedFloat.ofUInt64 .binary64 whole =
      .finite .positive mantissa (position - 52) digits.positive := by
    have greater : compare (whole.toNat : ℤ) 0 = .gt := Int.compare_eq_gt.mpr (by omega)
    rw [← rounded]
    simp only [UnpackedFloat.ofUInt64, UnpackedFloat.ofNat, UnpackedFloat.ofInt, UnpackedFloat.normalize,
      greater, Int.toNat_natCast]
  refine ⟨mantissa, position, digits, by omega, ?_⟩
  change (Float.Model.pack (UnpackedFloat.ofUInt64 .binary64 whole)).unpack = _
  rw [converted, unpack_pack_normal digits.full (by omega) (by omega)]

end PageInliner.Size
