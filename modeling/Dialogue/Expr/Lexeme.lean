import Dialogue.Expr.Token
import Dialogue.Text.Position

/-!
# Scanning expressions

A source text is cut into tokens from left to right, each time the longest one
that begins there; spaces and line breaks between tokens are skipped. Positions
are byte offsets in the source. The scan stops at the first place where no token
begins.
-/

namespace Dialogue

namespace Expr

def isSkipped (c : Char) : Bool :=
  c == ' ' || c == '\t' || c == '\r' || c == '\n' || c == '\x0c'

def isWordStart (c : Char) : Bool := c.isAlpha || c == '_'

def isWordPart (c : Char) : Bool := c.isAlphanum || c == '_'

/-- The digits of a fraction, if `cs` begins with a point and a digit. -/
def fractionGroup : List Char → List Char
  | '.' :: cs => cs.takeWhile Char.isDigit
  | _ => []

/-- The digits before and behind the point of the numeral that `cs` begins with. -/
def numberGroups (cs : List Char) : List Char × List Char :=
  (cs.takeWhile Char.isDigit, fractionGroup (cs.dropWhile Char.isDigit))

def numberLength (whole fraction : List Char) : Nat :=
  if fraction = [] then whole.length else whole.length + 1 + fraction.length

def unescapeChar : Char → Char
  | 'n' => '\n'
  | 't' => '\t'
  | c => c

/-- The text behind an opening quote, as far as it can belong to a string. -/
structure StringBody where
  value : List Char
  /-- The number of characters read, the closing quote included. -/
  length : Nat
  closed : Bool
deriving DecidableEq, Repr

def StringBody.push (c : Char) (n : Nat) (rest : StringBody) : StringBody :=
  { rest with value := c :: rest.value, length := n + rest.length }

/-- Reads a string behind its opening quote. A backslash takes the next character with
it, which may not be a line feed. -/
def stringBody : List Char → StringBody
  | [] => ⟨[], 0, false⟩
  | '"' :: _ => ⟨[], 1, true⟩
  | ['\\'] => ⟨[], 0, false⟩
  | '\\' :: c :: cs =>
    if c = '\n' then ⟨[], 0, false⟩ else (stringBody cs).push (unescapeChar c) 2
  | c :: cs => (stringBody cs).push c 1

/-- The symbol that `cs` begins with, the longer one where two do. -/
def symbolAt : List Char → Option Symbol
  | '(' :: _ => some .openParen
  | ')' :: _ => some .closeParen
  | ',' :: _ => some .comma
  | '+' :: '=' :: _ => some .plusAssign
  | '+' :: _ => some .plus
  | '-' :: '=' :: _ => some .minusAssign
  | '-' :: _ => some .minus
  | '*' :: '=' :: _ => some .starAssign
  | '*' :: _ => some .star
  | '/' :: '=' :: _ => some .slashAssign
  | '/' :: _ => some .slash
  | '=' :: '=' :: _ => some .equalEqual
  | '=' :: _ => some .assign
  | '!' :: '=' :: _ => some .bangEqual
  | '!' :: _ => some .not
  | '<' :: '=' :: _ => some .lessEqual
  | '<' :: _ => some .less
  | '>' :: '=' :: _ => some .greaterEqual
  | '>' :: _ => some .greater
  | '&' :: '&' :: _ => some .and
  | '|' :: '|' :: _ => some .or
  | '^' :: _ => some .xor
  | _ => none

def variableName : List Char → List Char
  | c :: cs => if isWordStart c then c :: cs.takeWhile isWordPart else []
  | [] => []

/-- The longest token that `cs` begins with, and its length in characters. -/
def tokenAt (cs : List Char) : Option (Token × Nat) :=
  match cs with
  | [] => none
  | '"' :: rest =>
    let body := stringBody rest
    if body.closed then some (.literal (.string (String.ofList body.value)), 1 + body.length)
    else none
  | '$' :: rest =>
    match variableName rest with
    | [] => none
    | name => some (.var (String.ofList name), 1 + name.length)
  | c :: rest =>
    if isWordStart c then
      let word := c :: rest.takeWhile isWordPart
      some (Token.ofWord word, word.length)
    else
      match numberGroups (c :: rest) with
      | ([], []) => (symbolAt (c :: rest)).map fun s => (.symbol s, s.chars.length)
      | (whole, fraction) =>
        some (.literal (.number (Decimal.ofGroups whole fraction).toFloat),
          numberLength whole fraction)

/-- The number of characters that a scan gives up on where no token begins: all that may
belong to a string without an end, and one character otherwise. -/
def errorLength : List Char → Nat
  | '"' :: rest => 1 + (stringBody rest).length
  | _ => 1

theorem numberLength_pos (whole fraction : List Char) (h : ¬(whole = [] ∧ fraction = [])) :
    0 < numberLength whole fraction := by
  unfold numberLength
  split
  · rename_i hf
    exact List.length_pos_iff.2 fun hw => h ⟨hw, hf⟩
  · omega

theorem Symbol.chars_length_pos (s : Symbol) : 0 < s.chars.length := by
  cases s <;> decide

theorem tokenAt_length_pos (cs : List Char) (t : Token) (n : Nat)
    (h : tokenAt cs = some (t, n)) : 0 < n := by
  unfold tokenAt at h
  split at h
  · cases h
  · simp only at h
    split at h
    · cases h; omega
    · cases h
  · split at h
    · cases h
    · cases h; omega
  · split at h
    · cases h
      simp
    · split at h
      · rw [Option.map_eq_some_iff] at h
        obtain ⟨s, _, hs⟩ := h
        cases hs
        exact s.chars_length_pos
      · rename_i whole fraction hne _
        cases h
        exact numberLength_pos whole fraction fun ⟨hw, hf⟩ => hne hw hf

/-! ### The scan -/

/-- A token with the bytes it takes in the source. -/
structure Lexeme where
  token : Token
  start : Nat
  stop : Nat
deriving DecidableEq

structure ScanError where
  text : List Char
  start : Nat
  stop : Nat
deriving DecidableEq, Repr

/-- Scans `cs`, which begins `offset` bytes into the source. -/
def scanFrom (offset : Nat) (cs : List Char) : Except ScanError (List Lexeme) :=
  match cs with
  | [] => .ok []
  | c :: rest =>
    if isSkipped c then scanFrom (offset + c.utf8Size) rest
    else
      match _found : tokenAt (c :: rest) with
      | none =>
        let text := (c :: rest).take (errorLength (c :: rest))
        .error ⟨text, offset, offset + Text.byteLength text⟩
      | some (token, n) =>
        let stop := offset + Text.byteLength ((c :: rest).take n)
        match scanFrom stop ((c :: rest).drop n) with
        | .ok lexemes => .ok (⟨token, offset, stop⟩ :: lexemes)
        | .error e => .error e
termination_by cs.length
decreasing_by
  · simp
  · have hn := tokenAt_length_pos _ _ _ _found
    simp only [List.length_drop, List.length_cons]
    omega

def scan (source : List Char) : Except ScanError (List Lexeme) := scanFrom 0 source

end Expr

end Dialogue
