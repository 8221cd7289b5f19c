import Dialogue.Expr.Basic
import Dialogue.Text.Quoted

/-!
# Expression tokens

The words of the expression language: literals, variables, names and symbols.
Some symbols have a second spelling as a word (`is`, `and`, `to`).
-/

namespace Dialogue

namespace Expr

inductive Symbol where
  | openParen | closeParen | comma
  | plus | minus | star | slash
  | assign | plusAssign | minusAssign | starAssign | slashAssign
  | equalEqual | bangEqual | less | lessEqual | greater | greaterEqual
  | and | or | xor | not
deriving DecidableEq, Repr

namespace Symbol

def chars : Symbol → List Char
  | openParen => ['(']
  | closeParen => [')']
  | comma => [',']
  | plus => ['+']
  | minus => ['-']
  | star => ['*']
  | slash => ['/']
  | assign => ['=']
  | plusAssign => ['+', '=']
  | minusAssign => ['-', '=']
  | starAssign => ['*', '=']
  | slashAssign => ['/', '=']
  | equalEqual => ['=', '=']
  | bangEqual => ['!', '=']
  | less => ['<']
  | lessEqual => ['<', '=']
  | greater => ['>']
  | greaterEqual => ['>', '=']
  | and => ['&', '&']
  | or => ['|', '|']
  | xor => ['^']
  | not => ['!']

def binaryOp? : Symbol → Option BinaryOp
  | or => some .or
  | xor => some .xor
  | and => some .and
  | equalEqual => some .eq
  | bangEqual => some .ne
  | less => some .lt
  | lessEqual => some .le
  | greater => some .gt
  | greaterEqual => some .ge
  | plus => some .add
  | minus => some .sub
  | star => some .mul
  | slash => some .div
  | _ => none

def unaryOp? : Symbol → Option UnaryOp
  | minus => some .negate
  | not => some .not
  | _ => none

end Symbol

inductive Token where
  | literal (value : Value)
  | var (name : String)
  | name (word : String)
  | symbol (s : Symbol)
deriving DecidableEq

namespace Token

def describe : Token → String
  | literal (.string s) => String.ofList (Text.quoted s.toList)
  | literal v => v.display
  | var x => "$" ++ x
  | name word => word
  | symbol s => "'" ++ String.ofList s.chars ++ "'"

def keywords : List (List Char × Token) :=
  [("true".toList, literal (.bool true)), ("false".toList, literal (.bool false)),
    ("to".toList, symbol .assign), ("is".toList, symbol .equalEqual),
    ("eq".toList, symbol .equalEqual), ("neq".toList, symbol .bangEqual),
    ("lt".toList, symbol .less), ("lte".toList, symbol .lessEqual),
    ("gt".toList, symbol .greater), ("gte".toList, symbol .greaterEqual),
    ("and".toList, symbol .and), ("or".toList, symbol .or), ("xor".toList, symbol .xor),
    ("not".toList, symbol .not)]

def ofWord (word : List Char) : Token :=
  match keywords.lookup word with
  | some token => token
  | none => name (String.ofList word)

end Token

end Expr

end Dialogue
