import Dialogue.Expr.Basic

/-!
# Writing expressions

The canonical text of an expression: one space around binary operators, and
parentheses only where the precedence or the grouping to the left would
otherwise give another tree.
-/

namespace Dialogue

namespace Expr

def escapedChar : Char → List Char
  | '"' => ['\\', '"']
  | '\\' => ['\\', '\\']
  | '\n' => ['\\', 'n']
  | '\t' => ['\\', 't']
  | c => [c]

def literalChars : Value → List Char
  | .number x => Decimal.floatChars x
  | .string s => '"' :: s.toList.flatMap escapedChar ++ ['"']
  | .bool true => "true".toList
  | .bool false => "false".toList

def parenthesized (needed : Bool) (cs : List Char) : List Char :=
  if needed then '(' :: cs ++ [')'] else cs

mutual

def chars : Expr → List Char
  | .literal _ value => literalChars value
  | .var _ name => '$' :: name.toList
  | .call _ name args => name.toList ++ '(' :: argumentChars args ++ [')']
  | .unary _ op operand =>
    op.symbol.toList ++ parenthesized (operand.precedence < 7) operand.chars
  | .binary _ op left right =>
    parenthesized (left.precedence < op.precedence) left.chars ++
      ' ' :: op.symbol.toList ++ ' ' ::
      parenthesized (right.precedence ≤ op.precedence) right.chars

def argumentChars : List Expr → List Char
  | [] => []
  | [e] => e.chars
  | e :: es => e.chars ++ ',' :: ' ' :: argumentChars es

end

def format (e : Expr) : String := String.ofList e.chars

end Expr

end Dialogue
