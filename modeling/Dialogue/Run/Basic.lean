import Dialogue.Library
import Dialogue.Session.Evaluation

/-!
# Runs and the stage they play on

A run plays nodes from a start node on. It keeps a stack of frames, one for every
list of statements it is inside of, and hands out cues to the host: lines,
commands, offers of options, and the ends of nodes. The stage is what outlives a
run: the library, the session and every offer that has been made.
-/

namespace Dialogue

structure Offer where
  labels : List String
  lines : List Nat
  selection : Option Nat := none
deriving DecidableEq, Repr

/-- Selects an option. A selection is final. -/
def Offer.select (o : Offer) (index : Nat) : Except RunError Offer :=
  match o.selection with
  | some earlier => .error (.alreadySelected earlier)
  | none =>
    if index < o.labels.length then .ok { o with selection := some index }
    else .error (.invalidSelection index o.labels.length)

/-- What runs share and leave behind. -/
structure Stage where
  library : Library := {}
  session : Session := {}
  /-- All offers in the order in which they were made. -/
  offers : List Offer := []

namespace Stage

/-- Selects an option of an offer that has been made; `none` if there is no such offer. -/
def select (g : Stage) (offer index : Nat) : Option (Except RunError Stage) :=
  g.offers[offer]?.map fun o =>
    match o.select index with
    | .error e => .error e
    | .ok o => .ok { g with offers := g.offers.set offer o }

def selection (g : Stage) (offer : Nat) : Option Nat := g.offers[offer]?.bind Offer.selection

end Stage

/-! ### Frames -/

inductive Choice where
  /-- A jump without a text of its own, followed unasked where it stands alone. -/
  | link (line : Nat) (destination : String)
  | option (line : Nat) (label destination : String)
  | shortcut (line : Nat) (label : String) (body : List Statement)

namespace Choice

def label : Choice → String
  | link _ destination => destination
  | option _ label _ => label
  | shortcut _ label _ => label

def line : Choice → Nat
  | link line _ => line
  | option line _ _ => line
  | shortcut line _ _ => line

/-- Shortcuts and jumps are never offered together. -/
def isShortcut : Choice → Bool
  | shortcut .. => true
  | _ => false

end Choice

/-- The offer of a list of choices, in their order. -/
def Offer.ofChoices (choices : List Choice) : Offer :=
  { labels := choices.map Choice.label, lines := choices.map Choice.line }

/-- The choice that a statement gives, and the condition under which it does. -/
def Statement.choice? : Statement → Option (Choice × Option Expr)
  | .link line destination => some (.link line destination, none)
  | .option line label destination condition => some (.option line label destination, condition)
  | .shortcut line label condition body => some (.shortcut line label body, condition)
  | _ => none

structure Frame where
  node : String
  rest : List Statement
  /-- The choices that have come up and wait to be offered. -/
  choices : List Choice := []
  /-- Whether this is the body of the node, not of a branch or a shortcut. -/
  endsNode : Bool

def Frame.accepts (f : Frame) (choice : Choice) : Bool :=
  match f.choices.getLast? with
  | none => true
  | some last => last.isShortcut == choice.isShortcut

structure Pending where
  offer : Nat
  choices : List Choice

/-- A run that has come to a stop between two cues. -/
structure Run where
  /-- The title of the start node, until it has been entered. -/
  start : Option String
  frames : List Frame := []
  pending : Option Pending := none
  done : Bool := false

/-- The title of the node that a run starts at unless told otherwise. -/
def defaultStart : String := "Start"

def Run.from (title : String) : Run := { start := some title }

inductive Cue where
  | text (content node : String) (line : Nat)
  | command (content node : String) (line : Nat)
  | options (number : Nat) (offer : Offer)
  | complete (title : String)
deriving DecidableEq, Repr

end Dialogue
