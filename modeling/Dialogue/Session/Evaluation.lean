import Dialogue.Session.Basic

/-!
# Evaluation

Expressions are evaluated from left to right; `&&` and `||` leave out their right
operand when the left one decides. An evaluation that fails keeps the accesses it
has made up to there.
-/

namespace Dialogue

/-- The order of two values as a comparison sees it; numbers that cannot be compared satisfy
no comparison. -/
def BinaryOp.compare (op : BinaryOp) : Value → Value → Option Bool
  | .number x, .number y =>
    match op with
    | .lt => some (decide (x < y))
    | .le => some (decide (x ≤ y))
    | .gt => some (decide (x > y))
    | _ => some (decide (x ≥ y))
  | .string s, .string t =>
    match op with
    | .lt => some (decide (s < t))
    | .le => some (!decide (t < s))
    | .gt => some (decide (t < s))
    | _ => some (!decide (s < t))
  | _, _ => none

/-- The sum of two numbers, or the joined texts if one of the values is a string. -/
def Value.add : Value → Value → Option Value
  | .number x, .number y => some (.number (x + y))
  | .string s, v => some (.string (s ++ v.display))
  | v, .string s => some (.string (v.display ++ s))
  | _, _ => none

def Value.arithmetic (f : Float → Float → Float) : Value → Value → Option Value
  | .number x, .number y => some (.number (f x y))
  | _, _ => none

def BinaryOp.apply? (op : BinaryOp) (a b : Value) : Option Value :=
  match op with
  | .or => some (.bool (a.truthy || b.truthy))
  | .and => some (.bool (a.truthy && b.truthy))
  | .xor => some (.bool (a.truthy != b.truthy))
  | .eq => some (.bool (a.equals b))
  | .ne => some (.bool (!a.equals b))
  | .lt | .le | .gt | .ge => (op.compare a b).map .bool
  | .add => a.add b
  | .sub => Value.arithmetic (· - ·) a b
  | .mul => Value.arithmetic (· * ·) a b
  | .div => Value.arithmetic (· / ·) a b

def BinaryOp.apply (op : BinaryOp) (a b : Value) (line : Nat) : Except RunError Value :=
  match op.apply? a b with
  | some v => .ok v
  | none => .error (.typeMismatch op a.type b.type line)

def UnaryOp.apply (op : UnaryOp) (v : Value) (line : Nat) : Except RunError Value :=
  match op, v with
  | .not, v => .ok (.bool (!v.truthy))
  | .negate, .number x => .ok (.number (-x))
  | .negate, v => .error (.invalidOperand .negate v.type line)

/-- The value of an operator that its left operand decides alone. -/
def BinaryOp.decided? (op : BinaryOp) (left : Value) : Option Value :=
  match op, left.truthy with
  | .and, false => some (.bool false)
  | .or, true => some (.bool true)
  | _, _ => none

/-! ### Expressions -/

mutual

def Expr.evaluate : Expr → Session → Except RunError Value × Session
  | .literal _ v, s => (.ok v, s)
  | .var line name, s =>
    match s.read name with
    | (some v, s) => (.ok v, s)
    | (none, s) => (.error (.unsetVariable name line), s)
  | .call line name args, s =>
    match evaluateAll args s with
    | (.ok values, s) => s.call name values line
    | (.error e, s) => (.error e, s)
  | .unary line op operand, s =>
    match operand.evaluate s with
    | (.ok v, s) => (op.apply v line, s)
    | (.error e, s) => (.error e, s)
  | .binary line op left right, s =>
    match left.evaluate s with
    | (.ok a, s) =>
      match op.decided? a with
      | some v => (.ok v, s)
      | none =>
        match right.evaluate s with
        | (.ok b, s) => (op.apply a b line, s)
        | (.error e, s) => (.error e, s)
    | (.error e, s) => (.error e, s)

def evaluateAll : List Expr → Session → Except RunError (List Value) × Session
  | [], s => (.ok [], s)
  | e :: es, s =>
    match e.evaluate s with
    | (.ok v, s) =>
      match evaluateAll es s with
      | (.ok vs, s) => (.ok (v :: vs), s)
      | (.error err, s) => (.error err, s)
    | (.error err, s) => (.error err, s)

end

/-- Whether a condition holds; no condition always does. -/
def Session.holds (s : Session) : Option Expr → Except RunError Bool × Session
  | none => (.ok true, s)
  | some e =>
    match e.evaluate s with
    | (.ok v, s) => (.ok v.truthy, s)
    | (.error err, s) => (.error err, s)

def AssignOp.combine (op : AssignOp) (target : String) (old : Option Value) (new : Value)
    (line : Nat) : Except RunError Value :=
  match op.binaryOp?, old with
  | none, _ => .ok new
  | some _, none => .error (.unsetVariable target line)
  | some op, some old => op.apply old new line

/-- Carries out an assignment. The variable is read after its new value has been evaluated,
whether the old one is needed or not. -/
def Session.assign (s : Session) (line : Nat) (target : String) (op : AssignOp) (value : Expr) :
    Except RunError Unit × Session :=
  match value.evaluate s with
  | (.error e, s) => (.error e, s)
  | (.ok new, s) =>
    match s.read target with
    | (old, s) =>
      match op.combine target old new line with
      | .error e => (.error e, s)
      | .ok v => (.ok (), s.write target v)

end Dialogue
