import Dialogue.Text.Visible

/-!
# Quoted text

A text between double quotes, on one line and without hidden characters: the
quote, the backslash and the usual controls have an escape of two characters,
every other hidden character is written by its code point in hexadecimal.
-/

namespace Dialogue

namespace Text

/-- The escape of a character that is named by a letter or stands for itself behind a
backslash. -/
def shortEscape : Char → Option Char
  | '"' => some '"'
  | '\\' => some '\\'
  | '\n' => some 'n'
  | '\r' => some 'r'
  | '\t' => some 't'
  | '\x00' => some '0'
  | _ => none

def quotedChar (c : Char) : List Char :=
  match shortEscape c with
  | some e => ['\\', e]
  | none =>
    if isVisible c then [c]
    else ['\\', 'u', '\x7b'] ++ Nat.toDigits 16 c.toNat ++ ['\x7d']

def quoted (cs : List Char) : List Char := '"' :: cs.flatMap quotedChar ++ ['"']

theorem quotedChar_of_shortEscape (c e : Char) (h : shortEscape c = some e) :
    quotedChar c = ['\\', e] := by
  simp [quotedChar, h]

theorem quotedChar_of_isVisible (c : Char) (h : shortEscape c = none) (hv : isVisible c = true) :
    quotedChar c = [c] := by
  simp [quotedChar, h, hv]

end Text

end Dialogue
