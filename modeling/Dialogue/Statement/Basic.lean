import Dialogue.Expr.Parser

/-!
# Statements

The body of a node is a list of statements. Shortcut options and conditionals
hold statements of their own.
-/

namespace Dialogue

mutual

/-- A statement with the source line it begins on. -/
inductive Statement where
  | text (line : Nat) (content : String)
  /-- A jump to a node, shown under the name of the node. -/
  | link (line : Nat) (destination : String)
  /-- A jump to a node, shown under a text of its own. -/
  | option (line : Nat) (label destination : String) (condition : Option Expr)
  /-- A choice that goes on with statements of its own. -/
  | shortcut (line : Nat) (label : String) (condition : Option Expr) (body : List Statement)
  /-- The first branch whose condition holds. -/
  | conditional (line : Nat) (branches : List Branch)
  | assignment (line : Nat) (target : String) (op : AssignOp) (value : Expr)
  | command (line : Nat) (content : String)

/-- A branch of a conditional; the last one may stand without a condition. -/
inductive Branch where
  | mk (line : Nat) (condition : Option Expr) (body : List Statement)

end

namespace Branch

def line : Branch → Nat
  | mk line _ _ => line

def condition : Branch → Option Expr
  | mk _ condition _ => condition

def body : Branch → List Statement
  | mk _ _ body => body

end Branch

namespace Statement

def line : Statement → Nat
  | text line _ => line
  | link line _ => line
  | option line _ _ _ => line
  | shortcut line _ _ _ => line
  | conditional line _ => line
  | assignment line _ _ _ => line
  | command line _ => line

def isSelectable : Statement → Bool
  | link .. => true
  | option .. => true
  | shortcut .. => true
  | _ => false

end Statement

end Dialogue
