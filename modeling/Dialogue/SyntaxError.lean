import Dialogue.Text.Position

/-!
# Syntax errors

What a reader of tokens expected, what it found instead, and where.
-/

namespace Dialogue

/-- What may come next where a syntax error is found. -/
inductive Expectation where
  | expression
  | openParen
  | closeParen
  | commaOrCloseParen
  | commandEnd
  | variableName
  | assignmentOperator
  | statement
  | endif
  | command
  | optionText
  | optionDestination
  | optionEnd
  | namedOption
  | shortcutText
  | lineEnd
deriving DecidableEq, Repr

def Expectation.describe : Expectation → String
  | expression => "expression"
  | openParen => "'('"
  | closeParen => "')'"
  | commaOrCloseParen => "',' or ')'"
  | commandEnd => "'>>'"
  | variableName => "variable"
  | assignmentOperator => "assignment operator"
  | statement => "statement"
  | endif => "'<<endif>>'"
  | command => "command"
  | optionText => "option text"
  | optionDestination => "option destination"
  | optionEnd => "']]'"
  | namedOption => "'[[text|destination]]' before an option condition"
  | shortcutText => "shortcut text"
  | lineEnd => "end of line"

structure SyntaxError where
  expected : Expectation
  found : String
  position : Position
deriving DecidableEq, Repr

def SyntaxError.message (e : SyntaxError) : String :=
  "expected " ++ e.expected.describe ++ ", found " ++ e.found ++ " at " ++ e.position.describe

end Dialogue
