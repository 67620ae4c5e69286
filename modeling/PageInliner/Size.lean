/-!
Sizes of files in kilobytes. A count of bytes is first rounded to 53 significant bits and then divided
by 1024, which is exact; the result has a 64-bit floating-point pattern and a text with one decimal. All
of it is arithmetic on natural numbers.
-/

set_option autoImplicit false

namespace PageInliner.Size

/-- `numerator / denominator` rounded to the nearest whole number, a half to the even one. -/
def roundDiv (numerator denominator : Nat) : Nat :=
  let quotient := numerator / denominator
  let doubled := 2 * (numerator % denominator)
  if denominator < doubled || (doubled == denominator && quotient % 2 == 1) then quotient + 1
  else quotient

/-- How many of the lowest bits of a number go beyond the first 53. -/
def excessBits (bytes : Nat) : Nat :=
  bytes.log2 + 1 - 53

/-- A count of bytes rounded to 53 significant bits, a half to the even one. -/
def significant (bytes : Nat) : Nat :=
  let unit := Nat.pow 2 (excessBits bytes)
  roundDiv bytes unit * unit

/-- The bits of a floating-point number of 64 bits that is worth `value / 2 ^ scale`. The value has at
most 53 significant bits and the number is not so small or large that its exponent would not fit. -/
def floatBits (value scale : Nat) : Nat :=
  if value = 0 then 0
  else
    let exponent := value.log2
    let fraction := value * Nat.pow 2 52 / Nat.pow 2 exponent - Nat.pow 2 52
    (exponent + 1023 - scale) * Nat.pow 2 52 + fraction

/-- The kilobytes in a count of bytes, as the bits of a floating-point number. -/
def kilobytesBits (bytes : Nat) : Nat :=
  floatBits (significant bytes) 10

/-- The tenths of a kilobyte in a count of bytes, to the nearest and a half to the even one. -/
def tenths (bytes : Nat) : Nat :=
  roundDiv (10 * significant bytes) 1024

/-- The size in kilobytes with one decimal. -/
def text (bytes : Nat) : String :=
  s!"{tenths bytes / 10}.{tenths bytes % 10} KB"

end PageInliner.Size
