/-!
# Prose

In prose a backslash shields the character behind it from being read as a bracket
or an arrow. Reading drops the backslashes in front of the characters that need
one, writing puts them there. Reading what was written gives the prose back
(`unescape_escape`).
-/

namespace Dialogue

namespace Prose

def isEscapable (c : Char) : Bool := c == '\\' || c == '[' || c == '<' || c == '-'

def unescape : List Char → List Char
  | '\\' :: c :: cs => if isEscapable c then c :: unescape cs else '\\' :: unescape (c :: cs)
  | c :: cs => c :: unescape cs
  | [] => []

/-- Whether a character needs a backslash, given the one behind it. -/
def needsShield (c : Char) (next : Option Char) : Bool :=
  if c = '\\' then (next.map isEscapable).getD false
  else (c == '[' || c == '<') && next == some c

/-- Prose with a backslash in front of every character that needs one. -/
def shielded : List Char → List Char
  | [] => []
  | c :: cs => if needsShield c cs.head? then '\\' :: c :: shielded cs else c :: shielded cs

/-- A line of prose; an arrow at its beginning is shielded too. -/
def escape : List Char → List Char
  | '-' :: '>' :: cs => '\\' :: shielded ('-' :: '>' :: cs)
  | cs => shielded cs

theorem isEscapable_of_needsShield (c : Char) (next : Option Char)
    (h : needsShield c next = true) : isEscapable c = true := by
  unfold needsShield at h
  split at h
  · rename_i hc
    rw [hc]
    decide
  · simp only [Bool.and_eq_true, Bool.or_eq_true, beq_iff_eq] at h
    rcases h.1 with hc | hc <;> (rw [hc]; decide)

theorem unescape_cons_of_ne (c : Char) (cs : List Char) (h : c ≠ '\\') :
    unescape (c :: cs) = c :: unescape cs := by
  cases cs with
  | nil => simp [unescape]
  | cons d cs => simp [unescape, h]

theorem unescape_shielded (cs : List Char) : unescape (shielded cs) = cs := by
  induction cs with
  | nil => rfl
  | cons c cs ih =>
    rw [shielded]
    split
    · rename_i hs
      simp [unescape, isEscapable_of_needsShield c _ hs, ih]
    · rename_i hs
      by_cases hc : c = '\\'
      · cases cs with
        | nil => simp [hc, shielded, unescape]
        | cons d cs =>
          have hd : isEscapable d = false := by
            simpa [needsShield, hc] using hs
          have hn : needsShield d cs.head? = false := by
            cases h : needsShield d cs.head? with
            | false => rfl
            | true =>
              have he := isEscapable_of_needsShield d _ h
              rw [hd] at he
              cases he
          have hsd : shielded (d :: cs) = d :: shielded cs := by
            rw [shielded, if_neg (by simp [hn])]
          rw [hsd] at ih ⊢
          rw [hc]
          simp [unescape, hd, ih]
      · rw [unescape_cons_of_ne c _ hc, ih]

theorem unescape_escape (cs : List Char) : unescape (escape cs) = cs := by
  unfold escape
  split
  · have hd : isEscapable '-' = true := by decide
    rename_i rest
    have he : shielded ('-' :: '>' :: rest) = '-' :: shielded ('>' :: rest) := by
      simp [shielded, needsShield]
    rw [he]
    simp [unescape, hd, unescape_shielded]
  · exact unescape_shielded cs

end Prose

end Dialogue
