import Dialogue.Text.Blank
import Dialogue.Text.Position

/-!
# Tokens of a body

The body of a node is a sequence of tokens, each with the text it covers and the
position where it begins. Three kinds cover no text: a change of indentation and
the end of the body.
-/

namespace Dialogue

inductive TokenKind where
  /-- A run of prose, of option text, or of the inside of a command. -/
  | text
  | identifier
  /-- A line break with the blank lines behind it and the indentation of the next line. -/
  | newline
  | optionStart
  | optionSep
  | optionEnd
  | commandStart
  | commandEnd
  | shortcutMarker
  | indent
  | dedent
  | endOfInput
  /-- All that is left where no token begins. -/
  | invalid
deriving DecidableEq, Repr

namespace TokenKind

def all : List TokenKind :=
  [text, identifier, newline, optionStart, optionSep, optionEnd, commandStart, commandEnd,
    shortcutMarker, indent, dedent, endOfInput, invalid]

def describe : TokenKind → String
  | text => "text"
  | identifier => "identifier"
  | newline => "newline"
  | optionStart => "'[['"
  | optionSep => "'|'"
  | optionEnd => "']]'"
  | commandStart => "'<<'"
  | commandEnd => "'>>'"
  | shortcutMarker => "'->'"
  | indent => "indent"
  | dedent => "dedent"
  | endOfInput => "end of input"
  | invalid => "invalid input"

def isFinal (kind : TokenKind) : Bool := kind == endOfInput || kind == invalid

theorem mem_all (kind : TokenKind) : kind ∈ all := by
  cases kind <;> decide

end TokenKind

structure Token where
  kind : TokenKind
  text : List Char
  position : Position
deriving DecidableEq, Repr

/-- How messages name a token: the words of a text, the kind of any other token. -/
def Token.describe (t : Token) : String :=
  if t.kind = .text ∨ t.kind = .identifier then "'" ++ String.ofList (Text.trim t.text) ++ "'"
  else t.kind.describe

end Dialogue
