import Dialogue.Body.Token

/-!
# What a token may begin with

A body is read in one of four modes, depending on the brackets that are open.
Each mode has its delimiters; text runs up to the next delimiter or line break.
In prose a backslash shields the character behind it.
-/

namespace Dialogue

/-- Whether a line break, with or without a carriage return, begins here. -/
def atLineBreak : List Char → Bool
  | '\n' :: _ => true
  | '\r' :: '\n' :: _ => true
  | _ => false

/-- The length of the blank lines that begin here and of the indentation behind them. -/
def blankLength : List Char → Nat
  | '\n' :: cs => blankLength cs + 1
  | '\r' :: '\n' :: cs => blankLength cs + 2
  | c :: cs => if Text.isIndent c then blankLength cs + 1 else 0
  | [] => 0

def indentLength (cs : List Char) : Nat := (cs.takeWhile Text.isIndent).length

inductive Mode where
  | base
  | option
  | destination
  | command
deriving DecidableEq, Repr

namespace Mode

def describe : Mode → String
  | base => "base"
  | option => "option"
  | destination => "option destination"
  | command => "command"

def after (mode : Mode) : TokenKind → Mode
  | .optionStart => option
  | .optionSep => destination
  | .commandStart => command
  | .optionEnd => base
  | .commandEnd => base
  | _ => mode

def delimiter? : Mode → List Char → Option TokenKind
  | base, '[' :: '[' :: _ => some .optionStart
  | base, '<' :: '<' :: _ => some .commandStart
  | option, ']' :: ']' :: _ => some .optionEnd
  | option, '|' :: _ => some .optionSep
  | destination, ']' :: ']' :: _ => some .optionEnd
  | command, '>' :: '>' :: _ => some .commandEnd
  | _, _ => none

def stopsText (mode : Mode) (cs : List Char) : Bool :=
  atLineBreak cs || (mode.delimiter? cs).isSome

/-- The length of the text that begins here. In prose a backslash takes the next character
with it, unless that begins a line break. -/
def textLength (mode : Mode) : List Char → Nat
  | [] => 0
  | [c] => if mode.stopsText [c] then 0 else 1
  | c :: d :: cs =>
    if mode.stopsText (c :: d :: cs) then 0
    else if mode = base ∧ c = '\\' ∧ ¬atLineBreak (d :: cs) then textLength mode cs + 2
    else textLength mode (d :: cs) + 1

def isDestinationChar (c : Char) : Bool := c.isAlphanum || c == '_' || c == '.' || c == '-'

/-- The length of the destination that begins here, with the spaces and tabs around it. -/
def destinationLength (cs : List Char) : Nat :=
  let lead := indentLength cs
  let word := ((cs.drop lead).takeWhile isDestinationChar).length
  if word = 0 then 0 else lead + word + indentLength (cs.drop (lead + word))

def run (kind : TokenKind) (n : Nat) : Option (TokenKind × Nat) :=
  if n = 0 then none else some (kind, n)

def delimiterLength (kind : TokenKind) : Nat := if kind = .optionSep then 1 else 2

def atArrow : List Char → Bool
  | '-' :: '>' :: _ => true
  | _ => false

def tokenAt (mode : Mode) (lineStart : Bool) (cs : List Char) : Option (TokenKind × Nat) :=
  if mode = base ∧ lineStart ∧ atArrow cs then some (.shortcutMarker, 2)
  else
    match mode.delimiter? cs with
    | some kind => some (kind, delimiterLength kind)
    | none =>
      match mode with
      | base =>
        if atLineBreak cs then some (.newline, blankLength cs)
        else run .text (base.textLength cs)
      | destination => run .identifier (destinationLength cs)
      | mode => run .text (mode.textLength cs)

theorem blankLength_le (cs : List Char) : blankLength cs ≤ cs.length := by
  fun_induction blankLength cs <;> simp_all

theorem blankLength_pos (cs : List Char) (h : atLineBreak cs = true) : 0 < blankLength cs := by
  unfold atLineBreak at h
  split at h
  · simp [blankLength]
  · simp [blankLength]
  · cases h

theorem run_pos (kind k : TokenKind) (n m : Nat) (h : run kind n = some (k, m)) : 0 < m := by
  unfold run at h
  split at h
  · cases h
  · cases h
    omega

theorem delimiterLength_pos (kind : TokenKind) : 0 < delimiterLength kind := by
  unfold delimiterLength
  split <;> omega

theorem tokenAt_pos (mode : Mode) (lineStart : Bool) (cs : List Char) (kind : TokenKind) (n : Nat)
    (h : mode.tokenAt lineStart cs = some (kind, n)) : 0 < n := by
  unfold tokenAt at h
  split at h
  · cases h
    omega
  · split at h
    · cases h
      exact delimiterLength_pos kind
    · split at h
      · split at h
        · rename_i hb
          cases h
          exact blankLength_pos cs hb
        · exact run_pos _ _ _ _ h
      · exact run_pos _ _ _ _ h
      · exact run_pos _ _ _ _ h

end Mode

end Dialogue
