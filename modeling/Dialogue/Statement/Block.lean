import Dialogue.Body.Lexer
import Dialogue.Statement.Item

/-!
# Blocks of statements

Items are put together to statements from left to right. What is open at a point
is kept on a stack, innermost first, with the statements that stand before it.
Indentation belongs to the shortcut option above it, or to nobody: a level that
no option has opened changes nothing.
-/

namespace Dialogue

/-- Who has opened a level of indentation. -/
inductive Opener where
  /-- A shortcut option, for its body. -/
  | shortcut
  /-- Nobody. -/
  | plain
deriving DecidableEq, Repr

/-- A construct whose end has not been read yet, with the statements before it. -/
inductive Enclosing where
  | shortcut (line : Nat) (label : String) (condition : Option Expr) (before : List Statement)
  /-- A conditional with its finished branches and the head of the branch being read. -/
  | conditional (line : Nat) (branches : List Branch) (branchLine : Nat)
      (condition : Option Expr) (before : List Statement)

/-- The statements of a body as far as it has been read. -/
structure Assembly where
  block : List Statement := []
  /-- The constructs around it, innermost first. -/
  around : List Enclosing := []
  levels : List Opener := []

namespace Assembly

def push (a : Assembly) (s : Statement) : Assembly := { a with block := a.block ++ [s] }

def nest (a : Assembly) (inside : List Statement → Enclosing) : Assembly :=
  { a with block := [], around := inside a.block :: a.around }

/-- A level of indentation ends at the token `t`. It may not be that of a shortcut option
around an open conditional. -/
def dedent (a : Assembly) (t : Token) : Except SyntaxError Assembly :=
  match a.levels, a.around with
  | [], _ => .ok a
  | .plain :: levels, _ => .ok { a with levels := levels }
  | .shortcut :: levels, .shortcut line label condition before :: around =>
    .ok ⟨before ++ [.shortcut line label condition a.block], around, levels⟩
  | .shortcut :: _, _ => .error ⟨.endif, t.describe, t.position⟩

def clauseText (c : Clause) : String := "'<<" ++ c.content ++ ">>'"

/-- A clause ends the branch being read. Behind a branch without a condition the conditional
must end. -/
def clause (a : Assembly) (c : Clause) : Except SyntaxError Assembly :=
  match a.around with
  | .conditional line branches branchLine condition before :: around =>
    let finished := branches ++ [.mk branchLine condition a.block]
    match c.kind, condition with
    | .endIf, _ =>
      .ok { a with block := before ++ [.conditional line finished], around := around }
    | _, none => .error ⟨.endif, clauseText c, c.position⟩
    | .elseIf e, some _ =>
      .ok { a with
        block := [],
        around := .conditional line finished c.position.line (some e) before :: around }
    | .otherwise, some _ =>
      .ok { a with
        block := [],
        around := .conditional line finished c.position.line none before :: around }
  | _ => .error ⟨.statement, clauseText c, c.position⟩

def add (a : Assembly) (t : Token) : Item → Except SyntaxError Assembly
  | .space => .ok a
  | .indent => .ok { a with levels := .plain :: a.levels }
  | .dedent => a.dedent t
  | .statement s => .ok (a.push s)
  | .shortcut line label condition =>
    .ok { a.nest (.shortcut line label condition) with levels := .shortcut :: a.levels }
  | .ifStart line condition => .ok (a.nest (.conditional line [] line (some condition)))
  | .clause c => a.clause c

/-- All statements, where the body ends. The end closes shortcut options, but no
conditional. -/
def finish (e : SyntaxError) :
    List Statement → List Enclosing → Except SyntaxError (List Statement)
  | block, [] => .ok block
  | block, .shortcut line label condition before :: around =>
    finish e (before ++ [.shortcut line label condition block]) around
  | _, .conditional .. :: _ => .error e

/-- Reads the remaining tokens. Nothing behind the end of the input is read. -/
def read (e : BodyEnd) (a : Assembly) (tokens : List Token) :
    Except SyntaxError (List Statement) :=
  match tokens with
  | [] => finish (e.misfit .endif []) a.block a.around
  | t :: rest =>
    if t.kind = .endOfInput then finish (e.misfit .endif [t]) a.block a.around
    else
      match readItem e t rest with
      | .error err => .error err
      | .ok (item, n) =>
        match a.add t item with
        | .error err => .error err
        | .ok a => read e a (rest.drop n)
termination_by tokens.length
decreasing_by
  simp only [List.length_drop, List.length_cons]
  omega

end Assembly

def Statement.ofTokens (tokens : List Token) : Except SyntaxError (List Statement) :=
  Assembly.read (.ofTokens tokens) {} tokens

inductive ParseError where
  | lexical (e : LexError)
  | syntactic (e : SyntaxError)
deriving DecidableEq, Repr

def ParseError.message : ParseError → String
  | lexical e => e.message
  | syntactic e => e.message

def Statement.ofBody (body : List Char) : Except ParseError (List Statement) :=
  match Body.tokenize body with
  | .error e => .error (.lexical e)
  | .ok tokens =>
    match Statement.ofTokens tokens with
    | .error e => .error (.syntactic e)
    | .ok statements => .ok statements

end Dialogue
