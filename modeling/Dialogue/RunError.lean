import Dialogue.Statement.Block

/-!
# Run errors

What can keep a run from going on, and what can be wrong with a selection.
-/

namespace Dialogue

inductive RunError where
  | nodeNotFound (title : String)
  | parse (node : String) (source : ParseError)
  | unsetVariable (name : String) (line : Nat)
  | unknownFunction (name : String) (line : Nat)
  | invalidSelection (index count : Nat)
  | alreadySelected (index : Nat)
  | unresolvedChoice
  | typeMismatch (op : BinaryOp) (left right : ValueType) (line : Nat)
  | invalidOperand (op : UnaryOp) (operand : ValueType) (line : Nat)
  | invalidArguments (function : String) (expected found line : Nat)
deriving DecidableEq, Repr

namespace RunError

def atLine (line : Nat) : String := " at line " ++ toString line

def message : RunError → String
  | nodeNotFound title => "node '" ++ title ++ "' not found"
  | parse node source => "node '" ++ node ++ "': " ++ source.message
  | unsetVariable name line => "variable '$" ++ name ++ "' is not set" ++ atLine line
  | unknownFunction name line => "unknown function '" ++ name ++ "'" ++ atLine line
  | invalidSelection index count =>
    "option " ++ toString index ++ " is out of range for " ++ toString count ++ " options"
  | alreadySelected index => "option " ++ toString index ++ " was already selected"
  | unresolvedChoice => "options must be selected before continuing"
  | typeMismatch op left right line =>
    "cannot apply '" ++ op.symbol ++ "' to " ++ left.name ++ " and " ++ right.name ++ atLine line
  | invalidOperand op operand line =>
    "cannot apply '" ++ op.symbol ++ "' to " ++ operand.name ++ atLine line
  | invalidArguments function expected found line =>
    "'" ++ function ++ "' takes " ++ toString expected ++ " argument(s), found " ++
      toString found ++ atLine line

end RunError

end Dialogue
