import Dialogue.Table
import Dialogue.Text.Quoted
import Dialogue.Value

/-!
# Functions

Expressions may call functions by name. One is built in and tells whether a node
has been entered; all others come from the host. What a host function answers
depends on its arguments and on the calls it has had before, and on nothing else.
-/

namespace Dialogue

/-- A function of the host. -/
structure HostFunction where
  /-- The answer to arguments, given those of all earlier calls. -/
  reply : (earlier : List (List Value)) → (args : List Value) → Value

namespace HostFunction

def const (value : Value) : HostFunction := ⟨fun _ _ => value⟩

def argumentCount : HostFunction := ⟨fun _ args => .number (Float.ofNat args.length)⟩

def sum : HostFunction :=
  ⟨fun _ args => .number ((args.filterMap Value.number?).foldl (· + ·) 0.0)⟩

def join : HostFunction :=
  ⟨fun _ args => .string (",".intercalate (args.map Value.display))⟩

def types : HostFunction :=
  ⟨fun _ args => .string (",".intercalate (args.map fun v => v.type.name))⟩

def first : HostFunction := ⟨fun _ args => args.headD (.bool false)⟩

/-- The number of calls so far, this one included. -/
def counter : HostFunction := ⟨fun earlier _ => .number (Float.ofNat (earlier.length + 1))⟩

end HostFunction

inductive Function where
  /-- Whether the node with the title in the argument has been entered. -/
  | visited
  /-- A function of the host, with the arguments of its calls so far. -/
  | host (function : HostFunction) (earlier : List (List Value))

def visitedName : String := "visited"

structure Functions where
  table : Table Function := Table.ofList [(visitedName, .visited)]

namespace Functions

/-- Adds a function of the host, in place of one with the same name. -/
def register (f : Functions) (name : String) (function : HostFunction) : Functions :=
  ⟨f.table.insert name (.host function [])⟩

def contains (f : Functions) (name : String) : Bool := f.table.contains name

def quotedList (names : List String) : String :=
  ", ".intercalate (names.map fun name => String.ofList (Text.quoted name.toList))

def describe (f : Functions) : String :=
  "Functions \x7b names: [" ++ quotedList f.table.sortedNames ++ "] \x7d"

end Functions

end Dialogue
