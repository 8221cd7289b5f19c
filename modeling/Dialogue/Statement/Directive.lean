import Dialogue.Body.Token
import Dialogue.Statement.Basic

/-!
# Commands inside a body

The first word of a command tells what it is: an assignment, a part of a
conditional, or else a command to the host.
-/

namespace Dialogue

def isKeywordChar (c : Char) : Bool := c.isAlphanum || c == '_'

/-- The first word of a command, and the number of characters up to its end. -/
def leadingWord (cs : List Char) : List Char × Nat :=
  let lead := cs.length - (Text.trimStart cs).length
  let word := (Text.trimStart cs).takeWhile isKeywordChar
  (word, lead + word.length)

inductive ClauseKind where
  | elseIf (condition : Expr)
  | otherwise
  | endIf

inductive Directive where
  | statement (s : Statement)
  | ifStart (condition : Expr)
  | clause (kind : ClauseKind)

/-- The place `n` characters into a token. Columns inside a command count bytes. -/
def Token.positionAt (t : Token) (n : Nat) : Position :=
  t.position.right (Text.byteLength (t.text.take n))

def Token.expressionAt (t : Token) (n : Nat) : Except SyntaxError Expr :=
  Expr.parseAt (t.positionAt n) (t.text.drop n)

/-- The command should have ended where `rest` begins. -/
def leftover (rest : List Char) (position : Position) : SyntaxError :=
  ⟨.commandEnd, "'" ++ String.ofList (Text.trim rest) ++ "'", position⟩

/-- Behind the word `else` of a command, which ends after `n` characters, may stand nothing
or the word `if` and a condition. -/
def elseClause (command : Token) (n : Nat) : Except SyntaxError ClauseKind :=
  let rest := command.text.drop n
  let lead := n + (rest.length - (Text.trimStart rest).length)
  let (word, next) := leadingWord (command.text.drop lead)
  if Text.trim rest = [] then .ok .otherwise
  else if word = "if".toList then (command.expressionAt (lead + next)).map .elseIf
  else .error (leftover rest (command.positionAt lead))

def readDirective (line : Nat) (command : Token) : Except SyntaxError Directive :=
  let (word, n) := leadingWord command.text
  let rest := command.text.drop n
  match String.ofList word with
  | "set" =>
    (Expr.parseAssignmentAt (command.positionAt n) rest).map fun a =>
      .statement (.assignment line a.target a.op a.value)
  | "if" => (command.expressionAt n).map .ifStart
  | "elseif" => (command.expressionAt n).map fun e => .clause (.elseIf e)
  | "else" => (elseClause command n).map .clause
  | "endif" =>
    if Text.trim rest = [] then .ok (.clause .endIf)
    else .error (leftover rest (command.positionAt n))
  | _ => .ok (.statement (.command line (String.ofList (Text.trim command.text))))

end Dialogue
