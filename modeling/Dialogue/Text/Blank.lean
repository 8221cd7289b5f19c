/-!
# Blank characters

The characters that count as white space at the ends of a text, and cutting them
off. Indentation is measured with spaces and tabs alone (`isIndent`).
-/

namespace Dialogue

namespace Text

/-- White space: tab to carriage return, the space, the next-line control, and the
spaces and separators of wider scripts. The zero-width space is not blank. -/
def isBlank (c : Char) : Bool :=
  let n := c.toNat
  (9 ≤ n && n ≤ 13) || n == 0x20 || n == 0x85 || n == 0xA0 || n == 0x1680 ||
    (0x2000 ≤ n && n ≤ 0x200A) || n == 0x2028 || n == 0x2029 || n == 0x202F ||
    n == 0x205F || n == 0x3000

def isIndent (c : Char) : Bool := c == ' ' || c == '\t'

theorem isBlank_of_isIndent (c : Char) (h : isIndent c = true) : isBlank c = true := by
  simp only [isIndent, Bool.or_eq_true, beq_iff_eq] at h
  rcases h with h | h <;> (rw [h]; decide)

def trimStart (cs : List Char) : List Char := cs.dropWhile isBlank

def trimEnd (cs : List Char) : List Char := (cs.reverse.dropWhile isBlank).reverse

def trim (cs : List Char) : List Char := trimEnd (trimStart cs)

/-- The maximal runs of characters that are not blank. -/
def words (cs : List Char) : List (List Char) :=
  (cs.splitOnP isBlank).filter (· ≠ [])

end Text

end Dialogue
