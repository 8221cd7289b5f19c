import Dialogue.Proofs.History

/-!
# Dialogue told by recursion

The meaning of dialogue without frames: a node is told by telling its statements,
and a jump, a branch or the body of a shortcut is told on the spot, by recursion,
before what follows it. Choices that come up are collected in an accumulator and
resolved where the collection ends. A narration may go on for ever, so each
recursion is bounded by fuel, and a narration that runs out of it is cut off; what
it has told by then is the beginning of what it tells with more.
-/

namespace Dialogue

inductive Event where
  | text (content node : String) (line : Nat)
  | command (content node : String) (line : Nat)
  | options (labels : List String) (lines : List Nat)
  | complete (title : String)
deriving DecidableEq, Repr

/-- How a narration comes to its end, or a part of it. -/
inductive Ending where
  /-- The part is through, and what follows it goes on. -/
  | onward
  /-- Everything is over. -/
  | concluded
  | failed (e : RunError)
  /-- Options are left without an answer. -/
  | waiting
  /-- Nobody has looked any further. -/
  | cut
deriving DecidableEq, Repr

structure Scene where
  session : Session
  /-- The options the host is going to select. -/
  answers : List Nat
  /-- What the host has seen, each time with the session behind it. -/
  seen : List (Event × Session) := []

namespace Scene

def withSession (s : Scene) (session : Session) : Scene := { s with session := session }

def reveal (s : Scene) (event : Event) : Scene := { s with seen := s.seen ++ [(event, s.session)] }

/-- The next answer of the host that selects one of `count` options. An answer out of range is
refused, and the host gives the next one. -/
def answer? (s : Scene) (count : Nat) : Option (Nat × Scene) :=
  match s.answers.dropWhile (count ≤ ·) with
  | [] => none
  | index :: answers => some (index, { s with answers := answers })

end Scene

namespace Narration

abbrev Part := Ending × Scene

def andThen (part : Part) (following : Scene → Part) : Part :=
  match part with
  | (.onward, scene) => following scene
  | part => part

/-- Resolves choices: a lone link is followed, all else is presented, and the selected choice
is told. -/
def resolve (node : String → Scene → Part) (block : List Statement → Scene → Part)
    (choices : List Choice) (scene : Scene) : Part :=
  match choices with
  | [] => (.onward, scene)
  | [.link _ destination] => node destination scene
  | choices =>
    let shown := scene.reveal (.options (choices.map Choice.label) (choices.map Choice.line))
    match shown.answer? choices.length with
    | none => (.waiting, { shown with answers := [] })
    | some (index, scene) =>
      match choices[index]? with
      | some (.link _ destination) => node destination scene
      | some (.option _ _ destination) => node destination scene
      | some (.shortcut _ _ body) => block body scene
      | none => (.waiting, scene)

def branches (block : List Statement → Scene → Part) : List Branch → Scene → Part
  | [], scene => (.onward, scene)
  | branch :: rest, scene =>
    match scene.session.holds branch.condition with
    | (.error e, session) => (.failed e, scene.withSession session)
    | (.ok true, session) => block branch.body (scene.withSession session)
    | (.ok false, session) => branches block rest (scene.withSession session)

def plain (title : String) (block : List Statement → Scene → Part) (s : Statement)
    (scene : Scene) : Part :=
  match s with
  | .text line content => (.onward, scene.reveal (.text content title line))
  | .command line content =>
    if content = "stop" then (.concluded, scene)
    else (.onward, scene.reveal (.command content title line))
  | .assignment line target op value =>
    match scene.session.assign line target op value with
    | (.error e, session) => (.failed e, scene.withSession session)
    | (.ok (), session) => (.onward, scene.withSession session)
  | .conditional _ list => branches block list scene
  | _ => (.onward, scene)

mutual

def node (nodes : Table Node) : (fuel : Nat) → String → Scene → Part
  | 0, _, scene => (.cut, scene)
  | fuel + 1, title, scene =>
    match Library.parsedBody nodes title with
    | .error e => (.failed e, scene)
    | .ok body =>
      andThen
        (statements nodes fuel title [] body
          (scene.withSession (scene.session.markVisited title)))
        fun scene => (.onward, scene.reveal (.complete title))

/-- Tells statements of the node with a title, given the choices that have come up. -/
def statements (nodes : Table Node) :
    (fuel : Nat) → String → List Choice → List Statement → Scene → Part
  | 0, _, _, _, scene => (.cut, scene)
  | fuel + 1, title, choices, [], scene =>
    resolve (node nodes fuel) (statements nodes fuel title []) choices scene
  | fuel + 1, title, choices, s :: rest, scene =>
    match s.choice? with
    | some (choice, condition) =>
      match scene.session.holds condition with
      | (.error e, session) => (.failed e, scene.withSession session)
      | (.ok false, session) =>
        statements nodes fuel title choices rest (scene.withSession session)
      | (.ok true, session) =>
        if choices.all fun c => c.isShortcut == choice.isShortcut then
          statements nodes fuel title (choices ++ [choice]) rest (scene.withSession session)
        else
          andThen
            (resolve (node nodes fuel) (statements nodes fuel title []) choices
              (scene.withSession session))
            (statements nodes fuel title [choice] rest)
    | none =>
      andThen (resolve (node nodes fuel) (statements nodes fuel title []) choices scene)
        fun scene =>
          andThen (plain title (statements nodes fuel title []) s scene)
            (statements nodes fuel title [] rest)

end

def narrate (nodes : Table Node) (fuel : Nat) (title : String) (scene : Scene) : Part :=
  andThen (node nodes fuel title scene) fun scene => (.concluded, scene)

/-- What has been cut off may go on as the other does; what has come to its end has come to the
same end. -/
def Approximates (a b : Part) : Prop :=
  if a.1 = .cut then a.2.seen <+: b.2.seen else a = b

theorem Approximates.trans {a b c : Part} (hab : Approximates a b) (hbc : Approximates b c) :
    Approximates a c := by
  unfold Approximates at hab ⊢
  split
  · rename_i ha
    rw [if_pos ha] at hab
    unfold Approximates at hbc
    split at hbc
    · exact hab.trans hbc
    · rw [← hbc]
      exact hab
  · rename_i ha
    rw [if_neg ha] at hab
    subst hab
    unfold Approximates at hbc
    rw [if_neg ha] at hbc
    exact hbc

end Narration

end Dialogue
