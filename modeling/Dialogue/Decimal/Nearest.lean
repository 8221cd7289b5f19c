import Dialogue.Decimal.Basic

/-!
# The double nearest to a numeral

A double that is neither negative nor a NaN is given by its bit pattern, and the
patterns are ordered as the numbers are. A pattern below that of infinity stands
for its significand times the power of two with its exponent less 1074. A quotient
of two naturals is rounded to the nearest such number, a tie going to the even
pattern; what is too large becomes infinity.
-/

namespace Dialogue

namespace Decimal

/-- The pattern of infinity, just above those of the finite numbers. -/
def infinityBits : Nat := 0x7FF0000000000000

/-- The number of patterns that share an exponent. -/
def patternsPerExponent : Nat := 0x10000000000000

def significand (bits : Nat) : Nat :=
  if bits < patternsPerExponent then bits
  else bits % patternsPerExponent + patternsPerExponent

/-- The exponent of two of a finite pattern, counted from `-1074`. -/
def exponent (bits : Nat) : Nat := bits / patternsPerExponent - 1

/-- The pattern with the given significand and exponent. A significand that is one too large
gives the pattern of half of it at the next exponent. -/
def pattern (significand exponent : Nat) : Nat := exponent * patternsPerExponent + significand

theorem pattern_significand_exponent (bits : Nat) :
    pattern (significand bits) (exponent bits) = bits := by
  have hm := Nat.div_add_mod bits patternsPerExponent
  by_cases h : bits < patternsPerExponent
  · rw [pattern, significand, exponent, if_pos h, Nat.div_eq_of_lt h, Nat.zero_sub,
      Nat.zero_mul, Nat.zero_add]
  · have hp : 1 ≤ bits / patternsPerExponent := Nat.div_pos (Nat.le_of_not_lt h) (by decide)
    rw [pattern, significand, exponent, if_neg h, Nat.sub_mul, Nat.one_mul]
    have hq : patternsPerExponent ≤ bits / patternsPerExponent * patternsPerExponent :=
      Nat.le_mul_of_pos_left _ hp
    rw [Nat.mul_comm] at hm
    omega

/-- The quotient rounded to the nearest natural, a tie going to the even one. -/
def roundEven (num den : Nat) : Nat :=
  let q := num / den
  let r := num % den
  if 2 * r < den ∨ (2 * r = den ∧ q % 2 = 0) then q else q + 1

theorem roundEven_mul (k den : Nat) (h : 0 < den) : roundEven (k * den) den = k := by
  simp [roundEven, h]

/-- Whether `num / den` lies below the power of two that the lengths of both in bits
suggest. -/
def belowLeadingPower (num den : Nat) : Bool :=
  num * twoPow (den.log2 - num.log2) < den * twoPow (num.log2 - den.log2)

/-- The exponent, counted from `-1074`, at which the quotient has a significand of
53 bits, or zero if there is none. -/
def roundingExponent (num den : Nat) : Nat :=
  if belowLeadingPower num den then num.log2 + 1021 - den.log2 else num.log2 + 1022 - den.log2

def nearestBits (num den : Nat) : Nat :=
  let e := roundingExponent num den
  if num = 0 then 0
  else min infinityBits (pattern (roundEven (num * twoPow (1074 - e)) (den * twoPow (e - 1074))) e)

def toFloat (d : Decimal) : Float :=
  Float.ofBits (nearestBits d.coefficient (tenPow d.scale)).toUInt64

end Decimal

end Dialogue
