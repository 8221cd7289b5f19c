import Dialogue.Run.Basic

/-!
# Playing a run

A step does one piece of work: it enters a node, takes one statement, presents
the choices that have come up, or leaves a frame. Most steps are silent, and the
host is told nothing until one of them gives a cue, the run ends, or something
goes wrong. Jumps that need no selection can go round in circles, so the number
of silent steps is bounded by a limit, and reaching it is an outcome of its own.
-/

namespace Dialogue

inductive Progress where
  /-- There is more to do before the host is told anything. -/
  | silent
  | cue (c : Cue)
  | ended
  /-- An offer has not been answered yet. -/
  | waiting
  | failed (e : RunError)
deriving DecidableEq, Repr

abbrev Outcome := Progress × Stage × Run

namespace Run

def currentNode (r : Run) : String := (r.frames.head?.map Frame.node).getD ""

def enterNode (g : Stage) (r : Run) (title : String) : Outcome :=
  match g.library.statements title with
  | (.error e, library) => (.failed e, { g with library := library }, r)
  | (.ok statements, library) =>
    (.silent, { g with library := library, session := g.session.markVisited title },
      { r with frames := { node := title, rest := statements, endsNode := true } :: r.frames })

def enterBlock (r : Run) (body : List Statement) : Run :=
  if body.isEmpty then r
  else { r with frames := { node := r.currentNode, rest := body, endsNode := false } :: r.frames }

def follow (g : Stage) (r : Run) : Choice → Outcome
  | .link _ destination => enterNode g r destination
  | .option _ _ destination => enterNode g r destination
  | .shortcut _ _ body => (.silent, g, r.enterBlock body)

/-- Presents choices to the host. A lone link is followed unasked. -/
def present (g : Stage) (r : Run) (choices : List Choice) : Outcome :=
  match choices with
  | [] => (.silent, g, r)
  | [.link line destination] => follow g r (.link line destination)
  | choices =>
    let offer := Offer.ofChoices choices
    (.cue (.options g.offers.length offer), { g with offers := g.offers ++ [offer] },
      { r with pending := some ⟨g.offers.length, choices⟩ })

/-- Adds a choice to those that wait in the innermost frame. A choice of the other kind
presents them first and waits alone. -/
def gather (g : Stage) (r : Run) (frame : Frame) (below : List Frame) (choice : Choice) : Outcome :=
  if frame.accepts choice then
    (.silent, g,
      { r with frames := { frame with choices := frame.choices ++ [choice] } :: below })
  else
    present g { r with frames := { frame with choices := [choice] } :: below } frame.choices

def chooseBranch (s : Session) : List Branch → Except RunError (List Statement) × Session
  | [] => (.ok [], s)
  | branch :: branches =>
    match s.holds branch.condition with
    | (.error e, s) => (.error e, s)
    | (.ok true, s) => (.ok branch.body, s)
    | (.ok false, s) => chooseBranch s branches

def stopCommand : String := "stop"

def execute (g : Stage) (r : Run) : Statement → Outcome
  | .text line content => (.cue (.text content r.currentNode line), g, r)
  | .command line content =>
    if content = stopCommand then (.silent, g, { r with frames := [] })
    else (.cue (.command content r.currentNode line), g, r)
  | .assignment line target op value =>
    match g.session.assign line target op value with
    | (.error e, s) => (.failed e, { g with session := s }, r)
    | (.ok (), s) => (.silent, { g with session := s }, r)
  | .conditional _ branches =>
    match chooseBranch g.session branches with
    | (.error e, s) => (.failed e, { g with session := s }, r)
    | (.ok body, s) => (.silent, { g with session := s }, r.enterBlock body)
  | _ => (.silent, g, r)

/-- Takes a statement of the innermost frame. Choices are gathered; any other statement
waits until those before it have been presented. -/
def take (g : Stage) (r : Run) (frame : Frame) (below : List Frame) (s : Statement)
    (rest : List Statement) : Outcome :=
  let taken := { frame with rest := rest }
  match s.choice? with
  | some (choice, condition) =>
    match g.session.holds condition with
    | (.error e, session) =>
      (.failed e, { g with session := session }, { r with frames := taken :: below })
    | (.ok false, session) =>
      (.silent, { g with session := session }, { r with frames := taken :: below })
    | (.ok true, session) => gather { g with session := session } r taken below choice
  | none =>
    if frame.choices.isEmpty then execute g { r with frames := taken :: below } s
    else present g { r with frames := { frame with choices := [] } :: below } frame.choices

/-- Leaves the innermost frame, whose statements are used up, once the choices that wait in
it have been presented. -/
def leave (g : Stage) (r : Run) (frame : Frame) (below : List Frame) : Outcome :=
  if frame.choices.isEmpty then
    (if frame.endsNode then .cue (.complete frame.node) else .silent, g, { r with frames := below })
  else present g { r with frames := { frame with choices := [] } :: below } frame.choices

def resume (g : Stage) (r : Run) (pending : Pending) : Outcome :=
  match g.selection pending.offer with
  | none => (.waiting, g, r)
  | some index =>
    match pending.choices[index]? with
    | none => (.failed (.invalidSelection index pending.choices.length), g, r)
    | some choice => follow g { r with pending := none } choice

def step (g : Stage) (r : Run) : Outcome :=
  match r.start, r.pending, r.frames with
  | some title, _, _ => enterNode g { r with start := none } title
  | none, some pending, _ => resume g r pending
  | none, none, [] => (.ended, g, r)
  | none, none, frame :: below =>
    match frame.rest with
    | [] => leave g r frame below
    | s :: rest => take g r frame below s rest

/-- Steps until one is not silent, but at most `limit` times. -/
def advance : (limit : Nat) → Stage → Run → Outcome
  | 0, g, r => (.silent, g, r)
  | limit + 1, g, r =>
    match step g r with
    | (.silent, g, r) => advance limit g r
    | outcome => outcome

/-- What the host gets when it asks a run to go on. -/
inductive Answer where
  | cue (c : Cue)
  | finished
  | failed (e : RunError)
  /-- The limit was reached before there was anything to tell. -/
  | unsettled
deriving DecidableEq, Repr

def ended (r : Run) : Run := { r with done := true }

def broken (r : Run) : Run := { r with frames := [], pending := none, done := true }

/-- Goes on to the next cue. An offer without an answer leaves everything as it is, any
other error ends the run. -/
def next (limit : Nat) (g : Stage) (r : Run) : Answer × Stage × Run :=
  if r.done then (.finished, g, r)
  else
    match advance limit g r with
    | (.cue c, g, r) => (.cue c, g, r)
    | (.ended, g, r) => (.finished, g, r.ended)
    | (.waiting, g, r) => (.failed .unresolvedChoice, g, r)
    | (.failed e, g, r) => (.failed e, g, r.broken)
    | (.silent, g, r) => (.unsettled, g, r)

end Run

end Dialogue
