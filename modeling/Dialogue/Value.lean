import Dialogue.Decimal.Shortest

/-!
# Values

Variables, expressions and host functions hold numbers, strings and truth
values. Every value counts as true or false in a condition, and has a text.
-/

namespace Dialogue

inductive Value where
  | number (x : Float)
  | string (s : String)
  | bool (b : Bool)
deriving DecidableEq

inductive ValueType where
  | number | string | bool
deriving DecidableEq, Repr

def ValueType.name : ValueType → String
  | number => "number"
  | string => "string"
  | bool => "bool"

namespace Value

def type : Value → ValueType
  | number _ => .number
  | string _ => .string
  | bool _ => .bool

/-- Zero, the empty string and `false` count as false in a condition, all else as true. -/
def truthy : Value → Bool
  | number x => x != 0.0
  | string s => !s.isEmpty
  | bool b => b

/-- The text of a value: shortest digits for a number, a string as it is. -/
def display : Value → String
  | number x => String.ofList (Decimal.floatChars x)
  | string s => s
  | bool true => "true"
  | bool false => "false"

/-- Equality as expressions see it: a NaN differs from itself, the two zeros are equal,
and values of different types differ. -/
def equals : Value → Value → Bool
  | number x, number y => x == y
  | string s, string t => s == t
  | bool a, bool b => a == b
  | _, _ => false

def number? : Value → Option Float
  | number x => some x
  | _ => none

def string? : Value → Option String
  | string s => some s
  | _ => none

def bool? : Value → Option Bool
  | bool b => some b
  | _ => none

end Value

end Dialogue
