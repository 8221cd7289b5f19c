/-!
# Decimal numerals

A numeral without sign and exponent: a coefficient and the number of its digits
that stand behind the point. Numerals are written positionally, and a point is
written only in front of at least one digit. Reading the two digit groups of a
written numeral gives the numeral back (`ofGroups_groups`).
-/

namespace Dialogue

def twoPow (n : Nat) : Nat := Nat.pow 2 n

def tenPow (n : Nat) : Nat := Nat.pow 10 n

theorem tenPow_succ (n : Nat) : tenPow (n + 1) = tenPow n * 10 := rfl

/-- The number `coefficient / tenPow scale`. -/
structure Decimal where
  coefficient : Nat
  scale : Nat
deriving DecidableEq, Repr

namespace Decimal

def lastDigits : Nat → Nat → List Char
  | 0, _ => []
  | width + 1, n => lastDigits width (n / 10) ++ [Nat.digitChar (n % 10)]

theorem length_lastDigits (width n : Nat) : (lastDigits width n).length = width := by
  induction width generalizing n with
  | zero => rfl
  | succ width ih => simp [lastDigits, ih]

theorem isDigit_of_mem_lastDigits (width n : Nat) (c : Char) (h : c ∈ lastDigits width n) :
    c.isDigit = true := by
  induction width generalizing n with
  | zero => simp [lastDigits] at h
  | succ width ih =>
    simp only [lastDigits, List.mem_append, List.mem_singleton] at h
    rcases h with h | h
    · exact ih (n / 10) h
    · rw [h]
      simpa using Nat.mod_lt n (by decide : 0 < 10)

def wholeDigits (d : Decimal) : List Char := Nat.toDigits 10 (d.coefficient / tenPow d.scale)

def fractionDigits (d : Decimal) : List Char := lastDigits d.scale d.coefficient

def ofGroups (whole fraction : List Char) : Decimal :=
  ⟨Nat.ofDigitChars 10 (whole ++ fraction) 0, fraction.length⟩

theorem ofDigitChars_lastDigits (width n start : Nat) :
    Nat.ofDigitChars 10 (lastDigits width n) start = start * tenPow width + n % tenPow width := by
  induction width generalizing n with
  | zero => simp [lastDigits, tenPow, Nat.mod_one]
  | succ width ih =>
    have hd : n % 10 < 10 := Nat.mod_lt n (by decide)
    rw [lastDigits, Nat.ofDigitChars_append, ih, Nat.ofDigitChars_cons,
      Nat.ofDigitChars_nil, Nat.toNat_digitChar_of_lt_ten hd]
    have hm : n % tenPow (width + 1) = n % 10 + 10 * (n / 10 % tenPow width) := by
      rw [tenPow_succ, Nat.mul_comm, Nat.mod_mul]
    have hz : '0'.toNat = 48 := rfl
    rw [hm, tenPow_succ, ← Nat.mul_assoc, hz]
    omega

theorem ofGroups_groups (d : Decimal) : ofGroups d.wholeDigits d.fractionDigits = d := by
  cases d with
  | mk c s =>
    simp only [ofGroups, wholeDigits, fractionDigits, length_lastDigits,
      Nat.ofDigitChars_append, ofDigitChars_lastDigits, mk.injEq, and_true]
    rw [Nat.ofDigitChars_toDigits (by decide) (by decide)]
    exact Nat.div_add_mod' c (tenPow s)

/-- The digits before the point, then, if there are any, a point and those behind it. -/
def chars (d : Decimal) : List Char :=
  if d.scale = 0 then d.wholeDigits else d.wholeDigits ++ '.' :: d.fractionDigits

theorem isDigit_of_mem_wholeDigits (d : Decimal) (c : Char) (h : c ∈ d.wholeDigits) :
    c.isDigit = true :=
  Nat.isDigit_of_mem_toDigits (by decide) (by decide) h

theorem wholeDigits_ne_nil (d : Decimal) : d.wholeDigits ≠ [] :=
  Nat.toDigits_ne_nil

end Decimal

end Dialogue
