import Dialogue.Expr.Printer
import Dialogue.Statement.Basic
import Dialogue.Statement.Prose

/-!
# Writing statements

The canonical text of statements: one to a line, the bodies of shortcut options
and branches indented by one tab more.
-/

namespace Dialogue

namespace Statement

def tabs (indent : Nat) : List Char := List.replicate indent '\t'

def conditionChars : Option Expr → List Char
  | some e => " <<if ".toList ++ e.chars ++ ">>".toList
  | none => []

/-- The line that begins a branch; the first branch begins the conditional. -/
def branchHead (first : Bool) : Option Expr → List Char
  | some e => (if first then "<<if ".toList else "<<elseif ".toList) ++ e.chars ++ ">>".toList
  | none => "<<else>>".toList

mutual

def chars (indent : Nat) : Statement → List Char
  | .text _ content => tabs indent ++ Prose.escape content.toList ++ ['\n']
  | .link _ destination => tabs indent ++ "[[".toList ++ destination.toList ++ "]]\n".toList
  | .option _ label destination condition =>
    tabs indent ++ "[[".toList ++ label.toList ++ '|' :: destination.toList ++ "]]".toList ++
      conditionChars condition ++ ['\n']
  | .shortcut _ label condition body =>
    tabs indent ++ "-> ".toList ++ label.toList ++ conditionChars condition ++ ['\n'] ++
      blockChars (indent + 1) body
  | .conditional _ branches =>
    tabs indent ++ branchesChars indent true branches ++ tabs indent ++ "<<endif>>\n".toList
  | .assignment _ target op value =>
    tabs indent ++ "<<set $".toList ++ target.toList ++ ' ' :: op.symbol.toList ++
      ' ' :: value.chars ++ ">>\n".toList
  | .command _ content => tabs indent ++ "<<".toList ++ content.toList ++ ">>\n".toList

def blockChars (indent : Nat) : List Statement → List Char
  | [] => []
  | s :: ss => s.chars indent ++ blockChars indent ss

/-- The lines of the branches of a conditional, the first without its indentation. -/
def branchesChars (indent : Nat) (first : Bool) : List Branch → List Char
  | [] => []
  | .mk _ condition body :: branches =>
    (if first then [] else tabs indent) ++ branchHead first condition ++
      '\n' :: blockChars (indent + 1) body ++ branchesChars indent false branches

end

def formatBody (statements : List Statement) : String := String.ofList (blockChars 0 statements)

end Statement

end Dialogue
