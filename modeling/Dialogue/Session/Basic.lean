import Dialogue.RunError
import Dialogue.Session.Functions

/-!
# Sessions

A session is what dialogue can change and read back: variables, the nodes that
have been entered, and the functions of the host. It keeps a journal of every
variable read or written and of every call to the host.
-/

namespace Dialogue

inductive Access where
  | read (name : String) (value : Option Value)
  | write (name : String) (value : Value)
  | call (name : String) (args : List Value)
deriving DecidableEq

/-- What dialogue can change and read back. -/
structure Session where
  store : Table Value := {}
  /-- The titles of the nodes that have been entered. -/
  visited : List String := []
  functions : Functions := {}
  /-- All accesses in the order in which they happened. -/
  journal : List Access := []

namespace Session

def note (s : Session) (access : Access) : Session := { s with journal := s.journal ++ [access] }

def read (s : Session) (name : String) : Option Value × Session :=
  (s.store.get? name, s.note (.read name (s.store.get? name)))

def write (s : Session) (name : String) (value : Value) : Session :=
  { s with store := s.store.insert name value }.note (.write name value)

def hasVisited (s : Session) (title : String) : Bool := s.visited.contains title

def markVisited (s : Session) (title : String) : Session :=
  if s.hasVisited title then s else { s with visited := s.visited ++ [title] }

def call (s : Session) (name : String) (args : List Value) (line : Nat) :
    Except RunError Value × Session :=
  match s.functions.table.get? name with
  | some .visited =>
    match args with
    | [title] => (.ok (.bool (s.hasVisited title.display)), s)
    | _ => (.error (.invalidArguments name 1 args.length line), s)
  | some (.host function earlier) =>
    let called := s.functions.table.insert name (.host function (earlier ++ [args]))
    (.ok (function.reply earlier args),
      { s with functions := ⟨called⟩ }.note (.call name args))
  | none => (.error (.unknownFunction name line), s)

def describe (s : Session) : String :=
  "Session \x7b visited: \x7b" ++ Functions.quotedList s.visited ++ "\x7d, functions: " ++
    s.functions.describe ++ ", .. \x7d"

end Session

end Dialogue
