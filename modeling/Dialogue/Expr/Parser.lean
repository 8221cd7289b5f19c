import Dialogue.Expr.Lexeme
import Dialogue.SyntaxError

/-!
# Parsing expressions

Lexemes are read once from left to right. What is open at a point (groups, calls
and operators that wait for an operand) is kept on a stack, innermost first. An
operator takes the operands on its left that bind at least as tightly, so every
level associates to the left; a closing symbol completes all that is open inside
its group.
-/

namespace Dialogue

/-- How an assignment combines the old value of a variable with the new one. -/
inductive AssignOp where
  | set | add | sub | mul | div
deriving DecidableEq, Repr

namespace AssignOp

def all : List AssignOp := [set, add, sub, mul, div]

def symbol : AssignOp → String
  | set => "="
  | add => "+="
  | sub => "-="
  | mul => "*="
  | div => "/="

def binaryOp? : AssignOp → Option BinaryOp
  | set => none
  | add => some .add
  | sub => some .sub
  | mul => some .mul
  | div => some .div

theorem mem_all (op : AssignOp) : op ∈ all := by
  cases op <;> decide

end AssignOp

namespace Expr

def Symbol.assignOp? : Symbol → Option AssignOp
  | assign => some .set
  | plusAssign => some .add
  | minusAssign => some .sub
  | starAssign => some .mul
  | slashAssign => some .div
  | _ => none

/-- A construct whose end has not been read yet. -/
inductive Pending where
  | group
  /-- A call with the arguments read so far. -/
  | call (name : String) (args : List Expr)
  | operand (op : UnaryOp)
  | right (left : Expr) (op : BinaryOp)

/-- What must come where the innermost open group ends; a whole expression ends with its
command. -/
def closing : List Pending → Expectation
  | [] => .commandEnd
  | .group :: _ => .closeParen
  | .call _ _ :: _ => .commaOrCloseParen
  | .operand _ :: rest => closing rest
  | .right _ _ :: rest => closing rest

/-- Completes the innermost operators that bind at least as tightly as `level`, the
operand `e` being the last one read. -/
def complete (line level : Nat) : List Pending → Expr → List Pending × Expr
  | .operand op :: rest, e => complete line level rest (.unary line op e)
  | .right left op :: rest, e =>
    if level ≤ op.precedence then complete line level rest (.binary line op left e)
    else (.right left op :: rest, e)
  | stack, e => (stack, e)

/-! ### Reading -/

/-- A lexeme that does not fit, by its offset in the source. -/
structure Misfit where
  expected : Expectation
  found : String
  offset : Nat
deriving DecidableEq, Repr

/-- The source of an expression: the line all its nodes stand on, and its size in bytes. -/
structure Source where
  line : Nat
  size : Nat

def Source.misfit (source : Source) (expected : Expectation) : List Lexeme → Misfit
  | [] => ⟨expected, "'>>'", source.size⟩
  | lexeme :: _ => ⟨expected, lexeme.token.describe, lexeme.start⟩

mutual

def readOperand (source : Source) (stack : List Pending) :
    List Lexeme → Except Misfit Expr
  | [] => .error (source.misfit .expression [])
  | lexeme :: rest =>
    match lexeme.token with
    | .literal value => readOperator source stack (.literal source.line value) rest
    | .var name => readOperator source stack (.var source.line name) rest
    | .name name => readArguments source stack name rest
    | .symbol .openParen => readOperand source (.group :: stack) rest
    | .symbol .minus => readOperand source (.operand .negate :: stack) rest
    | .symbol .not => readOperand source (.operand .not :: stack) rest
    | .symbol _ => .error (source.misfit .expression (lexeme :: rest))

def readArguments (source : Source) (stack : List Pending) (name : String) :
    List Lexeme → Except Misfit Expr
  | [] => .error (source.misfit .openParen [])
  | [lexeme] =>
    if lexeme.token = .symbol .openParen then readOperand source (.call name [] :: stack) []
    else .error (source.misfit .openParen [lexeme])
  | lexeme :: next :: rest =>
    if lexeme.token = .symbol .openParen then
      if next.token = .symbol .closeParen then
        readOperator source stack (.call source.line name []) rest
      else readOperand source (.call name [] :: stack) (next :: rest)
    else .error (source.misfit .openParen (lexeme :: next :: rest))

def readOperator (source : Source) (stack : List Pending) (e : Expr) :
    List Lexeme → Except Misfit Expr
  | [] =>
    match complete source.line 0 stack e with
    | ([], whole) => .ok whole
    | (stack, _) => .error (source.misfit (closing stack) [])
  | lexeme :: rest =>
    match lexeme.token with
    | .symbol .closeParen =>
      match complete source.line 0 stack e with
      | (.group :: stack, inner) => readOperator source stack inner rest
      | (.call name args :: stack, last) =>
        readOperator source stack (.call source.line name (args ++ [last])) rest
      | (stack, _) => .error (source.misfit (closing stack) (lexeme :: rest))
    | .symbol .comma =>
      match complete source.line 0 stack e with
      | (.call name args :: stack, last) =>
        readOperand source (.call name (args ++ [last]) :: stack) rest
      | (stack, _) => .error (source.misfit (closing stack) (lexeme :: rest))
    | .symbol s =>
      match s.binaryOp? with
      | some op =>
        match complete source.line op.precedence stack e with
        | (stack, left) => readOperand source (.right left op :: stack) rest
      | none => .error (source.misfit (closing stack) (lexeme :: rest))
    | _ => .error (source.misfit (closing stack) (lexeme :: rest))

end

def ofLexemes (source : Source) (lexemes : List Lexeme) : Except Misfit Expr :=
  readOperand source [] lexemes

structure Assignment where
  target : String
  op : AssignOp
  value : Expr

def assignmentOfLexemes (source : Source) (lexemes : List Lexeme) : Except Misfit Assignment :=
  match lexemes with
  | ⟨.var target, _, _⟩ :: rest =>
    match rest with
    | ⟨.symbol s, start, stop⟩ :: value =>
      match s.assignOp? with
      | some op => (ofLexemes source value).map fun e => ⟨target, op, e⟩
      | none => .error (source.misfit .assignmentOperator (⟨.symbol s, start, stop⟩ :: value))
    | other => .error (source.misfit .assignmentOperator other)
  | other => .error (source.misfit .variableName other)

/-- Reads a source text that begins at `origin` with a reader of lexemes. A character that
begins no token stands where an expression should. -/
def readSource {α : Type} (read : Source → List Lexeme → Except Misfit α)
    (origin : Position) (text : List Char) : Except SyntaxError α :=
  match scan text with
  | .error e =>
    .error ⟨.expression, "'" ++ String.ofList e.text ++ "'", origin.right e.start⟩
  | .ok lexemes =>
    match read ⟨origin.line, Text.byteLength text⟩ lexemes with
    | .error m => .error ⟨m.expected, m.found, origin.right m.offset⟩
    | .ok a => .ok a

def parseAt (origin : Position) (text : List Char) : Except SyntaxError Expr :=
  readSource ofLexemes origin text

def parseAssignmentAt (origin : Position) (text : List Char) : Except SyntaxError Assignment :=
  readSource assignmentOfLexemes origin text

def parse (text : String) (line : Nat) : Except SyntaxError Expr :=
  parseAt ⟨line, 1⟩ text.toList

end Expr

end Dialogue
