import Dialogue.Run.Step

/-!
# Hosts

A host loads nodes, starts runs and answers their offers. It plays one run at a
time and gives it up before it changes the library, the functions or the storage
of variables. Depending on the kind of storage it can look into the variables,
and can ask which of them have been accessed.
-/

namespace Dialogue

/-- What the host can see of the storage of variables. -/
inductive StorageKind where
  /-- Nothing. -/
  | memory
  /-- The variables. -/
  | shared
  /-- The variables and the accesses to them. -/
  | logged
deriving DecidableEq, Repr

inductive HostError where
  | noRun
  | noOptions
  | noStorage
  | run (e : RunError)
deriving DecidableEq, Repr

/-- A host with the run it plays. -/
structure Host where
  stage : Stage := {}
  run : Option Run := none
  storage : StorageKind := .memory
  /-- The accesses to logged variables that nobody has asked for yet. -/
  accesses : List Access := []
  calls : List (String × List Value) := []

namespace Host

def call? : Access → Option (String × List Value)
  | .call name args => some (name, args)
  | _ => none

/-- Goes through the journal of the session. Accesses to variables are kept only if the
storage is logged. -/
def collect (h : Host) : Host :=
  let journal := h.stage.session.journal
  let kept := if h.storage = .logged then journal.filter fun a => (call? a).isNone else []
  { h with
    stage := { h.stage with session := { h.stage.session with journal := [] } },
    accesses := h.accesses ++ kept,
    calls := h.calls ++ journal.filterMap call? }

def takeAccesses (h : Host) : List Access × Host := (h.accesses, { h with accesses := [] })

def takeCalls (h : Host) : List (String × List Value) × Host := (h.calls, { h with calls := [] })

/-- The number of an offer; the latest one if none is named. -/
def offerNumber (h : Host) (number : Option Nat) : Nat :=
  number.getD (h.stage.offers.length - 1)

def offer (h : Host) (number : Option Nat) : Except HostError Offer :=
  match h.stage.offers[h.offerNumber number]? with
  | some o => .ok o
  | none => .error .noOptions

def select (h : Host) (number : Option Nat) (index : Nat) : Except HostError Host :=
  match h.stage.select (h.offerNumber number) index with
  | none => .error .noOptions
  | some (.error e) => .error (.run e)
  | some (.ok stage) => .ok { h with stage := stage }

def withStore (h : Host) (store : Table Value) : Host :=
  { h with stage := { h.stage with session := { h.stage.session with store := store } } }

def visibleStore (h : Host) : Except HostError (Table Value) :=
  if h.storage = .memory then .error .noStorage else .ok h.stage.session.store

/-- Writes a variable behind the back of the run. -/
def setVariable (h : Host) (name : String) (value : Value) : Except HostError Host :=
  match h.visibleStore with
  | .error e => .error e
  | .ok store => .ok (h.withStore (store.insert name value))

def readVariable (h : Host) (name : String) : Option Value × Host :=
  match h.stage.session.read name with
  | (value, session) => (value, { h with stage := { h.stage with session := session } }.collect)

def hasVisited (h : Host) (title : String) : Bool := h.stage.session.hasVisited title

def dropRun (h : Host) : Host := { h with run := none }

def begin (h : Host) (title : String) : Host := { h with run := some (Run.from title) }

def load (h : Host) (nodes : List Node) : Host :=
  { h.dropRun with stage := { h.stage with library := h.stage.library.load nodes } }

def setStorage (h : Host) (kind : StorageKind) (store : Table Value) : Host :=
  { h.dropRun.withStore store with storage := kind }

def register (h : Host) (name : String) (function : HostFunction) : Host :=
  let functions := h.stage.session.functions.register name function
  let session := { h.stage.session with functions := functions }
  { h.dropRun with stage := { h.stage with session := session } }

/-! ### Playing -/

/-- The number of silent steps after which a host loses its patience. -/
def patience : Nat := 1000000

def next (h : Host) : Except HostError Run.Answer × Host :=
  match h.run with
  | none => (.error .noRun, h)
  | some run =>
    match run.next patience h.stage with
    | (answer, stage, run) => (.ok answer, { h with stage := stage, run := some run }.collect)

/-- Asks for cues, at most `count` of them, and answers offers with the given options in
turn; with `wrap` they count round and round. Ends at the first error, at the end of the
run, and at an offer without an answer left. -/
def play (wrap : Bool) : (count : Nat) → List Nat → Host → List Run.Answer × Host
  | 0, _, h => ([], h)
  | count + 1, choices, h =>
    match h.next with
    | (.error _, h) => ([], h)
    | (.ok answer, h) =>
      match answer, choices with
      | .cue (.options _ _), [] => ([answer], h)
      | .cue (.options number offer), choice :: choices =>
        match h.select (some number) (if wrap then choice % offer.labels.length else choice) with
        | .ok h =>
          match play wrap count choices h with
          | (answers, h) => (answer :: answers, h)
        | .error (.run e) => ([answer, .failed e], h)
        | .error _ => ([answer], h)
      | .cue _, choices =>
        match play wrap count choices h with
        | (answers, h) => (answer :: answers, h)
      | _, _ => ([answer], h)

/-- Lets the run go on to its end without looking at its cues, at most `count` of them. Gives
the error that ends it. -/
def finish : (count : Nat) → Host → Option RunError × Host
  | 0, h => (none, h)
  | count + 1, h =>
    match h.next with
    | (.ok (.cue _), h) => finish count h
    | (.ok (.failed e), h) => (some e, h)
    | (_, h) => (none, h)

end Host

end Dialogue
