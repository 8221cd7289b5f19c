import Dialogue.Body.Cursor
import Dialogue.Text.Quoted

/-!
# Lexers

A lexer offers two ways to walk through one body, which share their place in it.
`nextToken?` fails where no token begins and goes on failing; `next?` hands out
what is left as an invalid token instead, and ends behind the last token.
-/

namespace Dialogue

/-- Text in which no token begins. -/
structure LexError where
  mode : Mode
  remaining : List Char
  position : Position
deriving DecidableEq, Repr

/-- The first line of a text, without its line break. -/
def firstLine (cs : List Char) : List Char :=
  let line := cs.takeWhile (· != '\n')
  if line.length < cs.length ∧ line.getLast? = some '\r' then line.dropLast else line

def LexError.message (e : LexError) : String :=
  "unexpected input in " ++ e.mode.describe ++ " state at " ++ e.position.describe ++ ": " ++
    String.ofList (Text.quoted (firstLine e.remaining))

structure Lexer where
  cursor : Cursor
  error : Option LexError := none
  /-- Whether the last token has been handed out by `next?`. -/
  exhausted : Bool := false
deriving DecidableEq, Repr

namespace Lexer

def ofBody (body : List Char) : Lexer := { cursor := .ofBody body }

def mode (l : Lexer) : Mode := l.cursor.mode

/-- The next token, or the error that keeps the walk from going on. -/
def nextToken? (l : Lexer) : Except LexError Token × Lexer :=
  match l.error with
  | some e => (.error e, l)
  | none =>
    let (token, cursor) := l.cursor.step
    if token.kind = .invalid then
      let e := ⟨l.mode, token.text, token.position⟩
      (.error e, { l with cursor := cursor, error := some e })
    else (.ok token, { l with cursor := cursor })

/-- The next token of the walk that loses nothing. -/
def next? (l : Lexer) : Option Token × Lexer :=
  if l.exhausted then (none, l)
  else
    let (token, cursor) := l.cursor.step
    (some token, { l with cursor := cursor, exhausted := token.kind.isFinal })

end Lexer

def Cursor.tokens? (c : Cursor) : Except LexError (List Token) :=
  if _more : c.step.1.kind.isFinal = false then
    match tokens? c.step.2 with
    | .ok rest => .ok (c.step.1 :: rest)
    | .error e => .error e
  else if c.step.1.kind = .invalid then .error ⟨c.mode, c.step.1.text, c.step.1.position⟩
  else .ok [c.step.1]
termination_by c.weight
decreasing_by exact step_weight c _more

/-- All tokens of a body; invalid text is a token of its own. -/
def Body.tokens (body : List Char) : List Token := (Cursor.ofBody body).tokens

def Body.tokenize (body : List Char) : Except LexError (List Token) := (Cursor.ofBody body).tokens?

end Dialogue
