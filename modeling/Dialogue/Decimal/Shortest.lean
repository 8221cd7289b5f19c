import Dialogue.Decimal.Nearest

/-!
# The shortest numeral of a double

A number is written with the fewest digits that read back to it, on the coarsest
decimal grid that has such a numeral. Of two neighbours on that grid that both
read back the nearer one is taken, and the upper one if they are equally near.
Numbers are written positionally, without an exponent and without a fraction of
zeros; the sign of zero is kept.
-/

namespace Dialogue

namespace Decimal

/-- The numeral with these digits on the grid of the multiples of a power of ten. -/
def onGrid (grid : Int) (digits : Nat) : Decimal :=
  if 0 ≤ grid then ⟨digits * tenPow grid.toNat, 0⟩ else ⟨digits, (-grid).toNat⟩

def readsBack (bits : Nat) (d : Decimal) : Bool :=
  nearestBits d.coefficient (tenPow d.scale) = bits

/-- The numeral of a grid that reads back to the double with this pattern, whose exact
value is `num / den`. -/
def nearestOnGrid (bits num den : Nat) (grid : Int) : Option Decimal :=
  let above := num * tenPow (-grid).toNat
  let unit := den * tenPow grid.toNat
  let lower := onGrid grid (above / unit)
  let upper := onGrid grid (above / unit + 1)
  match readsBack bits lower, readsBack bits upper with
  | true, true => if 2 * (above % unit) < unit then some lower else some upper
  | true, false => some lower
  | false, true => some upper
  | false, false => none

theorem readsBack_of_nearestOnGrid (bits num den : Nat) (grid : Int) (d : Decimal)
    (h : nearestOnGrid bits num den grid = some d) : readsBack bits d = true := by
  unfold nearestOnGrid at h
  simp only at h
  split at h
  · split at h <;> (cases h; assumption)
  · cases h; assumption
  · cases h; assumption
  · cases h

def searchGrids (bits num den : Nat) : Nat → Int → Option Decimal
  | 0, _ => none
  | count + 1, grid =>
    match nearestOnGrid bits num den grid with
    | some d => some d
    | none => searchGrids bits num den count (grid - 1)

theorem readsBack_of_searchGrids (bits num den count : Nat) (grid : Int) (d : Decimal)
    (h : searchGrids bits num den count grid = some d) : readsBack bits d = true := by
  induction count generalizing grid with
  | zero => simp [searchGrids] at h
  | succ count ih =>
    unfold searchGrids at h
    split at h
    · rename_i found hf
      cases h
      exact readsBack_of_nearestOnGrid bits num den grid _ hf
    · exact ih (grid - 1) h

def exactNum (bits : Nat) : Nat := significand bits * twoPow (exponent bits - 1074)

def exactDen (bits : Nat) : Nat := twoPow (1074 - exponent bits)

/-- All digits of the exact value of a finite pattern. -/
def exact (bits : Nat) : Decimal :=
  ⟨exactNum bits * tenPow (1074 - exponent bits) / exactDen bits, 1074 - exponent bits⟩

/-- The shortest numeral that reads back to a finite pattern. The grids tried start above
the leading digit and end where every finite double has all its digits. -/
def shortest (bits : Nat) : Decimal :=
  let num := exactNum bits
  let den := exactDen bits
  let top := (Nat.toDigits 10 (num / den)).length
  if bits = 0 then ⟨0, 0⟩
  else (searchGrids bits num den (top + 1075) top).getD (exact bits)

/-- The pattern of the negative zero, which is the sign. -/
def signBit : Nat := 0x8000000000000000

def floatChars (x : Float) : List Char :=
  let bits := x.toBits.toNat
  let magnitude := bits % signBit
  if infinityBits < magnitude then "NaN".toList
  else
    let written := if magnitude = infinityBits then "inf".toList else (shortest magnitude).chars
    if bits < signBit then written else '-' :: written

end Decimal

end Dialogue
