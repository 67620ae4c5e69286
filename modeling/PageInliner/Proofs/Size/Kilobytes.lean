import PageInliner.Proofs.Size.Doubles

/-!
# Kilobytes

A size is rounded twice on its way to a text: a count of bytes to the 53 digits of a floating-point number, and
the kilobytes to tenths. What lies between the two, a division by 1024, is exact.
-/

set_option autoImplicit false

namespace PageInliner.Size

open Float.Model

theorem floatBits_significant {whole mantissa position : ℕ} (digits : Digits whole mantissa position) (scale : ℕ) :
    floatBits (significant whole) scale = (position + 1023 - scale) * 2 ^ 52 + (mantissa - 2 ^ 52) := by
  have some : 0 < significant whole := by
    have positive := digits.positive
    rw [← Nat.mul_lt_mul_right (Nat.two_pow_pos 52), zero_mul, ← digits.exactly]
    positivity
  have highest : (significant whole).log2 = position := by
    have lengths := log2_mul_two_pow digits.positive position
    rw [digits.exactly, log2_mul_two_pow some, digits.full] at lengths
    omega
  have fraction : significant whole * 2 ^ 52 / 2 ^ position = mantissa := by
    rw [← digits.exactly, Nat.mul_div_cancel _ (Nat.two_pow_pos position)]
  rw [floatBits, if_neg some.ne']
  simp only [highest, Nat.pow_eq, fraction]

/-- The kilobytes in some bytes have the digits of the bytes, and an exponent that is less by ten. -/
theorem toFloat_div_kilo {bytes : UInt64} (some : 0 < bytes.toNat) :
    ∃ mantissa position, ∃ digits : Digits bytes.toNat mantissa position, position ≤ 64 ∧
      bytes.toFloat / 1024 = .ofModel (.pack (.finite .positive mantissa (position - 52 - 10) digits.positive)) := by
  obtain ⟨mantissa, position, digits, highest, unpacked⟩ := unpack_toFloat some
  have kilo : (1024 : Float).toModel.unpack = .finite .positive (2 ^ 52) (10 - 52) (by decide) := rfl
  refine ⟨mantissa, position, digits, highest, ?_⟩
  change Float.ofModel (.pack (UnpackedFloat.div .binary64 bytes.toFloat.toModel.unpack
    (1024 : Float).toModel.unpack)) = _
  rw [unpacked, kilo, div_two_pow digits.full (by omega)]

theorem toBits_kilobytes (bytes : UInt64) : (bytes.toFloat / 1024).toBits.toNat = kilobytesBits bytes.toNat := by
  obtain none | some := Nat.eq_zero_or_pos bytes.toNat
  · obtain rfl : bytes = 0 := UInt64.toNat_inj.mp none
    rfl
  · obtain ⟨mantissa, position, digits, highest, quotient⟩ := toFloat_div_kilo some
    rw [quotient, kilobytesBits, floatBits_significant digits]
    change (Float.Model.pack _).toBits.toNat = _
    rw [toBits_pack_normal digits.full (by omega) (by omega)]
    omega

theorem value?_kilobytes (bytes : UInt64) :
    value? (bytes.toFloat / 1024) = some (significant bytes.toNat / 1024 : ℚ) := by
  obtain none | some := Nat.eq_zero_or_pos bytes.toNat
  · obtain rfl : bytes = 0 := UInt64.toNat_inj.mp none
    have zero : value? ((0 : UInt64).toFloat / 1024) = some 0 := rfl
    simpa [significant_eq_self] using zero
  · obtain ⟨mantissa, position, digits, highest, quotient⟩ := toFloat_div_kilo some
    have exactly : (mantissa : ℚ) * 2 ^ position = significant bytes.toNat * 2 ^ 52 := by
      exact_mod_cast digits.exactly
    have powers : (2 : ℚ) ^ ((position : ℤ) - 52 - 10) = 2 ^ position / 2 ^ 52 / 1024 := by
      rw [zpow_sub₀ two_ne_zero, zpow_sub₀ two_ne_zero, zpow_natCast]
      norm_num
    have scaled : (mantissa : ℚ) * 2 ^ ((position : ℤ) - 52 - 10) = significant bytes.toNat / 1024 := by
      rw [powers, ← mul_div_assoc, ← mul_div_assoc, exactly, mul_div_cancel_right₀ _ (by norm_num)]
    have unpacked : (bytes.toFloat / 1024).toModel.unpack =
        .finite .positive mantissa (position - 52 - 10) digits.positive := by
      rw [quotient]
      exact unpack_pack_normal digits.full (by omega) (by omega)
    rw [value?_of_unpack unpacked, scaled]

/-- A decimal numeral with one digit behind the point. -/
def IsNumeral (tenths : ℕ) (numeral : List Char) : Prop :=
  ∃ whole tenth : ℕ, tenths = 10 * whole + tenth ∧ tenth < 10 ∧
    numeral = Nat.toDigits 10 whole ++ ['.', tenth.digitChar]

theorem toList_text (bytes : ℕ) :
    ∃ numeral, IsNumeral (tenths bytes) numeral ∧ (text bytes).toList = numeral ++ " KB".toList := by
  have last : tenths bytes % 10 < 10 := Nat.mod_lt _ (by decide)
  have spelled : text bytes = (tenths bytes / 10).repr ++ "." ++ (tenths bytes % 10).repr ++ " KB" := rfl
  refine ⟨_, ⟨tenths bytes / 10, tenths bytes % 10, (Nat.div_add_mod _ 10).symm, last, rfl⟩, ?_⟩
  simp [spelled, Nat.toList_repr, Nat.toDigits_of_lt_base last]

theorem tenths_near {bytes : ℕ} (small : bytes < 2 ^ 53) : |(tenths bytes / 10 : ℚ) - bytes / 1024| ≤ 1 / 20 := by
  have near := (tenths_isNearest bytes).near
  rw [significant_eq_self small] at near
  obtain ⟨below, above⟩ := abs_le.mp near
  rw [abs_le]
  constructor <;> linarith

/-- The size of any file: the bytes are rounded to 53 digits, their division by 1024 is exact, and the text
shows the tenths of a kilobyte that are nearest to the quotient. -/
theorem size_rounded_twice (bytes : UInt64) :
    IsSignificant bytes.toNat (significant bytes.toNat) ∧
      (bytes.toNat < 2 ^ 53 → significant bytes.toNat = bytes.toNat) ∧
      (bytes.toFloat / 1024).toBits.toNat = kilobytesBits bytes.toNat ∧
      value? (bytes.toFloat / 1024) = some (significant bytes.toNat / 1024 : ℚ) ∧
      IsNearest (10 * (significant bytes.toNat / 1024)) (tenths bytes.toNat) ∧
      (∃ numeral, IsNumeral (tenths bytes.toNat) numeral ∧
        (text bytes.toNat).toList = numeral ++ " KB".toList) ∧
      (∀ more : UInt64, bytes ≤ more → tenths bytes.toNat ≤ tenths more.toNat) ∧
      (bytes.toNat < 2 ^ 53 → |(tenths bytes.toNat / 10 : ℚ) - bytes.toNat / 1024| ≤ 1 / 20) := by
  refine ⟨isSignificant_significant _, significant_eq_self, toBits_kilobytes bytes, value?_kilobytes bytes,
    tenths_isNearest _, toList_text _, ?_, tenths_near⟩
  intro more order
  exact tenths_mono (UInt64.le_iff_toNat_le.mp order)

end PageInliner.Size
