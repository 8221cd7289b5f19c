import Dialogue.Value

/-!
# Expressions

Expression trees with the operators that join them. Every node remembers the
source line it stands on, which matters only to error messages.
-/

namespace Dialogue

/-- Operators between two operands, from the loosest binding to the tightest. -/
inductive BinaryOp where
  | or | xor | and | eq | ne | lt | le | gt | ge | add | sub | mul | div
deriving DecidableEq, Repr

namespace BinaryOp

def all : List BinaryOp := [or, xor, and, eq, ne, lt, le, gt, ge, add, sub, mul, div]

def symbol : BinaryOp → String
  | or => "||"
  | xor => "^"
  | and => "&&"
  | eq => "=="
  | ne => "!="
  | lt => "<"
  | le => "<="
  | gt => ">"
  | ge => ">="
  | add => "+"
  | sub => "-"
  | mul => "*"
  | div => "/"

/-- How tightly an operator binds; every level associates to the left. -/
def precedence : BinaryOp → Nat
  | or | xor => 1
  | and => 2
  | eq | ne => 3
  | lt | le | gt | ge => 4
  | add | sub => 5
  | mul | div => 6

theorem one_le_precedence (op : BinaryOp) : 1 ≤ op.precedence := by
  cases op <;> decide

theorem precedence_le_six (op : BinaryOp) : op.precedence ≤ 6 := by
  cases op <;> decide

theorem mem_all (op : BinaryOp) : op ∈ all := by
  cases op <;> decide

end BinaryOp

inductive UnaryOp where
  | negate | not
deriving DecidableEq, Repr

namespace UnaryOp

def all : List UnaryOp := [negate, not]

def symbol : UnaryOp → String
  | negate => "-"
  | not => "!"

theorem mem_all (op : UnaryOp) : op ∈ all := by
  cases op <;> decide

end UnaryOp

inductive Expr where
  | literal (line : Nat) (value : Value)
  | var (line : Nat) (name : String)
  | call (line : Nat) (name : String) (args : List Expr)
  | unary (line : Nat) (op : UnaryOp) (operand : Expr)
  | binary (line : Nat) (op : BinaryOp) (left right : Expr)

namespace Expr

def line : Expr → Nat
  | literal line _ => line
  | var line _ => line
  | call line _ _ => line
  | unary line _ _ => line
  | binary line _ _ _ => line

def precedence : Expr → Nat
  | binary _ op _ _ => op.precedence
  | unary .. => 7
  | _ => 8

end Expr

end Dialogue
