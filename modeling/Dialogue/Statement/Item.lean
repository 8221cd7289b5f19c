import Dialogue.Statement.Directive
import Dialogue.Statement.Prose

/-!
# Items of a body

A group of tokens that belong together is an item: a whole statement, the head of
a shortcut option or of a conditional, a clause that goes on with or ends a
conditional, or a change of indentation. Items are read one by one, each from the
first of its tokens, and a reader tells how many more tokens its item takes.
-/

namespace Dialogue

/-- A command that goes on with or ends a conditional. -/
structure Clause where
  kind : ClauseKind
  content : String
  position : Position

/-- A group of tokens that belong together. -/
inductive Item where
  | space
  | indent
  | dedent
  | statement (s : Statement)
  /-- The head of a shortcut option whose body is indented below it. -/
  | shortcut (line : Nat) (label : String) (condition : Option Expr)
  | ifStart (line : Nat) (condition : Expr)
  | clause (c : Clause)

/-- The place behind the last token of a body, for messages. -/
structure BodyEnd where
  position : Position

def BodyEnd.ofTokens (tokens : List Token) : BodyEnd :=
  ⟨(tokens.getLast?.map Token.position).getD .start⟩

def BodyEnd.misfit (e : BodyEnd) (expected : Expectation) : List Token → SyntaxError
  | [] => ⟨expected, TokenKind.endOfInput.describe, e.position⟩
  | t :: _ => ⟨expected, t.describe, t.position⟩

/-- The first of the remaining tokens, which must be of the given kind, and those behind
it. -/
def BodyEnd.expect (e : BodyEnd) (kind : TokenKind) (expected : Expectation)
    (tokens : List Token) : Except SyntaxError (Token × List Token) :=
  match tokens with
  | [] => .error (e.misfit expected [])
  | t :: rest => if t.kind = kind then .ok (t, rest) else .error (e.misfit expected tokens)

def endsLine : List Token → Bool
  | [] => true
  | t :: _ => t.kind == .newline || t.kind == .dedent || t.kind == .endOfInput

def Token.isBlankText (t : Token) : Bool := t.kind == .text && Text.trim t.text == []

/-- The condition that ends the line of an option, with the number of its tokens. Blank text
may stand in front of it. -/
def trailingCondition (tokens : List Token) : Except SyntaxError (Option Expr × Nat) :=
  let lead := if (tokens.head?.map Token.isBlankText).getD false then 1 else 0
  match tokens.drop lead with
  | first :: command :: last :: rest =>
    let (word, n) := leadingWord command.text
    if first.kind = .commandStart ∧ command.kind = .text ∧ last.kind = .commandEnd ∧
        endsLine rest ∧ word = "if".toList then
      (command.expressionAt n).map fun e => (some e, lead + 3)
    else .ok (none, 0)
  | _ => .ok (none, 0)

/-! ### Readers -/

/-- The option behind an opening bracket. Only an option with a destination of its own may
have a condition. -/
def readOption (e : BodyEnd) (start : Token) (tokens : List Token) :
    Except SyntaxError (Item × Nat) := do
  let line := start.position.line
  let (label, rest) ← e.expect .text .optionText tokens
  let content := Text.trim label.text
  if content = [] then throw ⟨.optionText, "blank text", label.position⟩
  match rest.head?.map Token.kind with
  | some .optionSep =>
    let (target, rest) ← e.expect .identifier .optionDestination rest.tail
    let (_, rest) ← e.expect .optionEnd .optionEnd rest
    let (condition, n) ← trailingCondition rest
    return (.statement (.option line (String.ofList content)
      (String.ofList (Text.trim target.text)) condition), 4 + n)
  | _ =>
    let (_, rest) ← e.expect .optionEnd .optionEnd rest
    match ← trailingCondition rest with
    | (some _, _) =>
      throw ⟨.namedOption, "'[[" ++ String.ofList content ++ "]]'", start.position⟩
    | (none, _) => return (.statement (.link line (String.ofList content)), 2)

/-- The number of tokens of a line break, and whether an indented line follows it. -/
def lineBreakTokens : List Token → Nat × Bool
  | t :: next :: _ =>
    if t.kind = .newline then if next.kind = .indent then (2, true) else (1, false)
    else (0, false)
  | [t] => if t.kind = .newline then (1, false) else (0, false)
  | [] => (0, false)

/-- The shortcut option behind an arrow. Its line must end behind its label and condition. -/
def readShortcut (e : BodyEnd) (marker : Token) (tokens : List Token) :
    Except SyntaxError (Item × Nat) := do
  let line := marker.position.line
  let (label, rest) ← e.expect .text .shortcutText tokens
  let (condition, n) ← trailingCondition rest
  let content := Text.trim label.text
  if content = [] then throw ⟨.shortcutText, "blank text", label.position⟩
  if endsLine (rest.drop n) = false then throw (e.misfit .lineEnd (rest.drop n))
  match lineBreakTokens (rest.drop n) with
  | (m, true) => return (.shortcut line (String.ofList content) condition, 1 + n + m)
  | (m, false) =>
    return (.statement (.shortcut line (String.ofList content) condition []), 1 + n + m)

def readCommand (e : BodyEnd) (start : Token) (tokens : List Token) :
    Except SyntaxError (Item × Nat) := do
  let line := start.position.line
  let (command, rest) ← e.expect .text .command tokens
  let (_, _) ← e.expect .commandEnd .commandEnd rest
  match ← readDirective line command with
  | .statement s => return (.statement s, 2)
  | .ifStart condition => return (.ifStart line condition, 2)
  | .clause kind =>
    return (.clause ⟨kind, String.ofList (Text.trim command.text), start.position⟩, 2)

def readItem (e : BodyEnd) (t : Token) (rest : List Token) : Except SyntaxError (Item × Nat) :=
  match t.kind with
  | .newline => .ok (.space, 0)
  | .indent => .ok (.indent, 0)
  | .dedent => .ok (.dedent, 0)
  | .text =>
    let content := Text.trim t.text
    if content = [] then .ok (.space, 0)
    else .ok (.statement (.text t.position.line (String.ofList (Prose.unescape content))), 0)
  | .optionStart => readOption e t rest
  | .shortcutMarker => readShortcut e t rest
  | .commandStart => readCommand e t rest
  | _ => .error (e.misfit .statement (t :: rest))

end Dialogue
