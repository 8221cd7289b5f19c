import Dialogue.Proofs.Exchange
import Dialogue.Proofs.Shape

/-!
# Other lines

Statements, and what a run makes of them, remember the lines they come from. Here
these are taken through a function: the constant one erases all of them, the
identity leaves them alone, and adding a number moves a block further down. An
evaluation hands lines on to its errors and makes no other use of them
(`Expr.evaluate_mapLines`), and neither do assignments and branches.
-/

namespace Dialogue

namespace Expr

mutual

def mapLines (f : Nat → Nat) : Expr → Expr
  | .literal line value => .literal (f line) value
  | .var line name => .var (f line) name
  | .call line name args => .call (f line) name (argumentsMapLines f args)
  | .unary line op operand => .unary (f line) op (operand.mapLines f)
  | .binary line op left right => .binary (f line) op (left.mapLines f) (right.mapLines f)

def argumentsMapLines (f : Nat → Nat) : List Expr → List Expr
  | [] => []
  | e :: es => e.mapLines f :: argumentsMapLines f es

end

mutual

theorem mapLines_id : ∀ e : Expr, e.mapLines id = e
  | .literal _ _ | .var _ _ => rfl
  | .call _ _ args => by rw [mapLines, argumentsMapLines_id args, id]
  | .unary _ _ operand => by rw [mapLines, mapLines_id operand, id]
  | .binary _ _ left right => by rw [mapLines, mapLines_id left, mapLines_id right, id]

theorem argumentsMapLines_id : ∀ es : List Expr, argumentsMapLines id es = es
  | [] => rfl
  | e :: es => by rw [argumentsMapLines, mapLines_id e, argumentsMapLines_id es]

end

mutual

theorem mapLines_const (n : Nat) : ∀ e : Expr, e.mapLines (fun _ => n) = e.atLine n
  | .literal _ _ | .var _ _ => rfl
  | .call _ _ args => by rw [mapLines, atLine, argumentsMapLines_const n args]
  | .unary _ _ operand => by rw [mapLines, atLine, mapLines_const n operand]
  | .binary _ _ left right => by
    rw [mapLines, atLine, mapLines_const n left, mapLines_const n right]

theorem argumentsMapLines_const (n : Nat) :
    ∀ es : List Expr, argumentsMapLines (fun _ => n) es = argumentsAtLine n es
  | [] => rfl
  | e :: es => by
    rw [argumentsMapLines, argumentsAtLine, mapLines_const n e, argumentsMapLines_const n es]

end

mutual

theorem mapLines_mapLines (f g : Nat → Nat) :
    ∀ e : Expr, (e.mapLines g).mapLines f = e.mapLines (f ∘ g)
  | .literal _ _ | .var _ _ => rfl
  | .call _ _ args => by
    rw [mapLines, mapLines, mapLines, argumentsMapLines_argumentsMapLines f g args]
    rfl
  | .unary _ _ operand => by
    rw [mapLines, mapLines, mapLines, mapLines_mapLines f g operand]
    rfl
  | .binary _ _ left right => by
    rw [mapLines, mapLines, mapLines, mapLines_mapLines f g left, mapLines_mapLines f g right]
    rfl

theorem argumentsMapLines_argumentsMapLines (f g : Nat → Nat) :
    ∀ es : List Expr, argumentsMapLines f (argumentsMapLines g es) = argumentsMapLines (f ∘ g) es
  | [] => rfl
  | e :: es => by
    rw [argumentsMapLines, argumentsMapLines, argumentsMapLines, mapLines_mapLines f g e,
      argumentsMapLines_argumentsMapLines f g es]

end

end Expr

namespace Statement

mutual

def mapLines (f : Nat → Nat) : Statement → Statement
  | .text line content => .text (f line) content
  | .link line destination => .link (f line) destination
  | .option line label destination condition =>
    .option (f line) label destination (condition.map (Expr.mapLines f))
  | .shortcut line label condition body =>
    .shortcut (f line) label (condition.map (Expr.mapLines f)) (blockMapLines f body)
  | .conditional line branches => .conditional (f line) (branchesMapLines f branches)
  | .assignment line target op value => .assignment (f line) target op (value.mapLines f)
  | .command line content => .command (f line) content

def blockMapLines (f : Nat → Nat) : List Statement → List Statement
  | [] => []
  | s :: ss => s.mapLines f :: blockMapLines f ss

def branchesMapLines (f : Nat → Nat) : List Branch → List Branch
  | [] => []
  | .mk line condition body :: branches =>
    .mk (f line) (condition.map (Expr.mapLines f)) (blockMapLines f body) ::
      branchesMapLines f branches

end

theorem blockMapLines_eq_map (f : Nat → Nat) (ss : List Statement) :
    blockMapLines f ss = ss.map (mapLines f) := by
  induction ss with
  | nil => rfl
  | cons s ss ih => rw [blockMapLines, ih, List.map_cons]

theorem blockMapLines_append (f : Nat → Nat) (a b : List Statement) :
    blockMapLines f (a ++ b) = blockMapLines f a ++ blockMapLines f b := by
  rw [blockMapLines_eq_map, blockMapLines_eq_map, blockMapLines_eq_map, List.map_append]

theorem branchesMapLines_append (f : Nat → Nat) (a b : List Branch) :
    branchesMapLines f (a ++ b) = branchesMapLines f a ++ branchesMapLines f b := by
  induction a with
  | nil => rfl
  | cons branch branches ih =>
    obtain ⟨line, condition, body⟩ := branch
    rw [List.cons_append, branchesMapLines, branchesMapLines, ih, List.cons_append]

theorem conditionMapLines_id (condition : Option Expr) :
    condition.map (Expr.mapLines id) = condition := by
  cases condition with
  | none => rfl
  | some e => rw [Option.map_some, Expr.mapLines_id]

theorem conditionMapLines_const (condition : Option Expr) :
    condition.map (Expr.mapLines fun _ => 0) = erasedCondition condition := by
  cases condition with
  | none => rfl
  | some e => rw [Option.map_some, Expr.mapLines_const, erasedCondition, Option.map_some]

mutual

theorem mapLines_id : ∀ s : Statement, s.mapLines id = s
  | .text _ _ | .link _ _ | .command _ _ => rfl
  | .option _ _ _ condition => by rw [mapLines, conditionMapLines_id condition, id]
  | .shortcut _ _ condition body => by
    rw [mapLines, conditionMapLines_id condition, blockMapLines_id body, id]
  | .conditional _ branches => by rw [mapLines, branchesMapLines_id branches, id]
  | .assignment _ _ _ value => by rw [mapLines, Expr.mapLines_id value, id]

theorem blockMapLines_id : ∀ ss : List Statement, blockMapLines id ss = ss
  | [] => rfl
  | s :: ss => by rw [blockMapLines, mapLines_id s, blockMapLines_id ss]

theorem branchesMapLines_id : ∀ branches : List Branch, branchesMapLines id branches = branches
  | [] => rfl
  | .mk line condition body :: branches => by
    rw [branchesMapLines, conditionMapLines_id condition, blockMapLines_id body,
      branchesMapLines_id branches, id]

end

mutual

/-- Erasing the lines takes all of them to one and the same. -/
theorem mapLines_const : ∀ s : Statement, s.mapLines (fun _ => 0) = s.erased
  | .text _ _ | .link _ _ | .command _ _ => rfl
  | .option _ _ _ condition => by rw [mapLines, erased, conditionMapLines_const condition]
  | .shortcut _ _ condition body => by
    rw [mapLines, erased, conditionMapLines_const condition, blockMapLines_const body]
  | .conditional _ branches => by rw [mapLines, erased, branchesMapLines_const branches]
  | .assignment _ _ _ value => by rw [mapLines, erased, Expr.mapLines_const 0 value]

theorem blockMapLines_const :
    ∀ ss : List Statement, blockMapLines (fun _ => 0) ss = erasedBlock ss
  | [] => rfl
  | s :: ss => by rw [blockMapLines, erasedBlock, mapLines_const s, blockMapLines_const ss]

theorem branchesMapLines_const :
    ∀ branches : List Branch, branchesMapLines (fun _ => 0) branches = erasedBranches branches
  | [] => rfl
  | .mk line condition body :: branches => by
    rw [branchesMapLines, erasedBranches, conditionMapLines_const condition,
      blockMapLines_const body, branchesMapLines_const branches]

end

theorem conditionMapLines_conditionMapLines (f g : Nat → Nat) (condition : Option Expr) :
    (condition.map (Expr.mapLines g)).map (Expr.mapLines f) =
      condition.map (Expr.mapLines (f ∘ g)) := by
  cases condition with
  | none => rfl
  | some e => rw [Option.map_some, Option.map_some, Option.map_some, Expr.mapLines_mapLines f g e]

mutual

theorem mapLines_mapLines (f g : Nat → Nat) :
    ∀ s : Statement, (s.mapLines g).mapLines f = s.mapLines (f ∘ g)
  | .text _ _ | .link _ _ | .command _ _ => rfl
  | .option _ _ _ condition => by
    rw [mapLines, mapLines, mapLines, conditionMapLines_conditionMapLines f g condition]
    rfl
  | .shortcut _ _ condition body => by
    rw [mapLines, mapLines, mapLines, conditionMapLines_conditionMapLines f g condition,
      blockMapLines_blockMapLines f g body]
    rfl
  | .conditional _ branches => by
    rw [mapLines, mapLines, mapLines, branchesMapLines_branchesMapLines f g branches]
    rfl
  | .assignment _ _ _ value => by
    rw [mapLines, mapLines, mapLines, Expr.mapLines_mapLines f g value]
    rfl

theorem blockMapLines_blockMapLines (f g : Nat → Nat) :
    ∀ ss : List Statement, blockMapLines f (blockMapLines g ss) = blockMapLines (f ∘ g) ss
  | [] => rfl
  | s :: ss => by
    rw [blockMapLines, blockMapLines, blockMapLines, mapLines_mapLines f g s,
      blockMapLines_blockMapLines f g ss]

theorem branchesMapLines_branchesMapLines (f g : Nat → Nat) : ∀ branches : List Branch,
    branchesMapLines f (branchesMapLines g branches) = branchesMapLines (f ∘ g) branches
  | [] => rfl
  | .mk line condition body :: branches => by
    rw [branchesMapLines, branchesMapLines, branchesMapLines,
      conditionMapLines_conditionMapLines f g condition, blockMapLines_blockMapLines f g body,
      branchesMapLines_branchesMapLines f g branches]
    rfl

end

theorem erasedBlock_blockMapLines (g : Nat → Nat) (ss : List Statement) :
    erasedBlock (blockMapLines g ss) = erasedBlock ss := by
  rw [← blockMapLines_const, ← blockMapLines_const, blockMapLines_blockMapLines]
  rfl

end Statement

/-! ### Errors and evaluation -/

/-- An error with other lines. The lines of a parse error belong to the text of the body, and
stay. -/
def RunError.mapLines (f : Nat → Nat) : RunError → RunError
  | .unsetVariable name line => .unsetVariable name (f line)
  | .unknownFunction name line => .unknownFunction name (f line)
  | .typeMismatch op left right line => .typeMismatch op left right (f line)
  | .invalidOperand op operand line => .invalidOperand op operand (f line)
  | .invalidArguments function expected found line =>
    .invalidArguments function expected found (f line)
  | e => e

namespace Session

variable (f : Nat → Nat)

def failMapLines {α : Type} : Except RunError α × Session → Except RunError α × Session
  | (.ok a, s) => (.ok a, s)
  | (.error e, s) => (.error (e.mapLines f), s)

/-- Results that differ in lines only: values are equal, and so are the sessions. -/
theorem failMapLines_eq {α : Type} {x y : Except RunError α × Session}
    (h : failMapLines f x = failMapLines f y) :
    (∃ a s, x = (.ok a, s) ∧ y = (.ok a, s)) ∨
      ∃ e e' s, e.mapLines f = e'.mapLines f ∧ x = (.error e, s) ∧ y = (.error e', s) := by
  obtain ⟨e | a, s⟩ := x <;> obtain ⟨e' | a', s'⟩ := y <;> simp only [failMapLines,
    Prod.mk.injEq, Except.error.injEq, Except.ok.injEq, reduceCtorEq, false_and] at h
  · obtain ⟨he, rfl⟩ := h
    exact Or.inr ⟨e, e', s, he, rfl, rfl⟩
  · obtain ⟨rfl, rfl⟩ := h
    exact Or.inl ⟨a, s, rfl, rfl⟩

theorem call_mapLines (s : Session) (name : String) (args : List Value) (line : Nat) :
    s.call name args (f line) = failMapLines f (s.call name args line) := by
  unfold call
  split
  · split <;> rfl
  · rfl
  · rfl

end Session

theorem BinaryOp.apply_mapLines (f : Nat → Nat) (op : BinaryOp) (a b : Value) (line : Nat)
    (s : Session) : (op.apply a b (f line), s) = Session.failMapLines f (op.apply a b line, s) := by
  unfold apply
  split <;> rfl

theorem UnaryOp.apply_mapLines (f : Nat → Nat) (op : UnaryOp) (v : Value) (line : Nat)
    (s : Session) : (op.apply v (f line), s) = Session.failMapLines f (op.apply v line, s) := by
  unfold apply
  split <;> rfl

namespace Expr
open Session (failMapLines)

variable (f : Nat → Nat)

mutual

theorem evaluate_mapLines : ∀ (e : Expr) (s : Session),
    (e.mapLines f).evaluate s = failMapLines f (e.evaluate s)
  | .literal _ _, _ => rfl
  | .var line name, s => by
    rw [mapLines, evaluate, evaluate]
    simp only [Session.read]
    cases s.store.get? name <;> rfl
  | .call line name args, s => by
    rw [mapLines, evaluate, evaluate, evaluateAll_mapLines args s]
    obtain ⟨values | e, s'⟩ := evaluateAll args s
    · rfl
    · exact Session.call_mapLines f s' name _ line
  | .unary line op operand, s => by
    rw [mapLines, evaluate, evaluate, evaluate_mapLines operand s]
    obtain ⟨v | e, s'⟩ := operand.evaluate s
    · rfl
    · exact UnaryOp.apply_mapLines f op _ line s'
  | .binary line op left right, s => by
    rw [mapLines, evaluate, evaluate, evaluate_mapLines left s]
    obtain ⟨e | a, s'⟩ := left.evaluate s
    · rfl
    · simp only [failMapLines]
      cases op.decided? a with
      | some v => rfl
      | none =>
        simp only
        rw [evaluate_mapLines right s']
        obtain ⟨e | b, s''⟩ := right.evaluate s'
        · rfl
        · exact BinaryOp.apply_mapLines f op a b line s''

theorem evaluateAll_mapLines : ∀ (es : List Expr) (s : Session),
    evaluateAll (argumentsMapLines f es) s = failMapLines f (evaluateAll es s)
  | [], _ => rfl
  | e :: es, s => by
    rw [argumentsMapLines, evaluateAll, evaluateAll, evaluate_mapLines e s]
    obtain ⟨err | v, s'⟩ := e.evaluate s
    · rfl
    · simp only [failMapLines]
      rw [evaluateAll_mapLines es s']
      obtain ⟨err | vs, s''⟩ := evaluateAll es s' <;> rfl

end

end Expr

namespace Session

variable (f : Nat → Nat)

theorem holds_mapLines (s : Session) (condition : Option Expr) :
    s.holds (condition.map (Expr.mapLines f)) = failMapLines f (s.holds condition) := by
  cases condition with
  | none => rfl
  | some e =>
    rw [Option.map_some, holds, holds, e.evaluate_mapLines f s]
    obtain ⟨err | v, s'⟩ := e.evaluate s <;> rfl

theorem assign_mapLines (s : Session) (line : Nat) (target : String) (op : AssignOp)
    (value : Expr) :
    s.assign (f line) target op (value.mapLines f) =
      failMapLines f (s.assign line target op value) := by
  rw [assign, assign, value.evaluate_mapLines f s]
  obtain ⟨err | new, s'⟩ := value.evaluate s
  · rfl
  · simp only [failMapLines, read, AssignOp.combine]
    cases op.binaryOp? with
    | none => rfl
    | some op =>
      cases s'.store.get? target with
      | none => rfl
      | some old =>
        simp only [BinaryOp.apply]
        cases op.apply? old new <;> rfl

end Session

/-! ### What a run keeps -/

def Choice.mapLines (f : Nat → Nat) : Choice → Choice
  | .link line destination => .link (f line) destination
  | .option line label destination => .option (f line) label destination
  | .shortcut line label body => .shortcut (f line) label (Statement.blockMapLines f body)

def Offer.mapLines (f : Nat → Nat) (o : Offer) : Offer := { o with lines := o.lines.map f }

def Frame.mapLines (f : Nat → Nat) (frame : Frame) : Frame :=
  { frame with
    rest := Statement.blockMapLines f frame.rest, choices := frame.choices.map (Choice.mapLines f) }

def Pending.mapLines (f : Nat → Nat) (p : Pending) : Pending :=
  { p with choices := p.choices.map (Choice.mapLines f) }

def Run.mapLines (f : Nat → Nat) (r : Run) : Run :=
  { r with
    frames := r.frames.map (Frame.mapLines f), pending := r.pending.map (Pending.mapLines f) }

def Cue.mapLines (f : Nat → Nat) : Cue → Cue
  | .text content node line => .text content node (f line)
  | .command content node line => .command content node (f line)
  | .options number offer => .options number (offer.mapLines f)
  | .complete title => .complete title

def Progress.mapLines (f : Nat → Nat) : Progress → Progress
  | .cue c => .cue (c.mapLines f)
  | .failed e => .failed (e.mapLines f)
  | progress => progress

def Run.Answer.mapLines (f : Nat → Nat) : Run.Answer → Run.Answer
  | .cue c => .cue (c.mapLines f)
  | .failed e => .failed (e.mapLines f)
  | answer => answer

def Reply.mapLines (f : Nat → Nat) : Reply → Reply
  | .answer a => .answer (a.mapLines f)
  | .refused e => .refused (e.mapLines f)
  | reply => reply

section

variable (f : Nat → Nat)

@[simp] theorem Choice.label_mapLines (choice : Choice) :
    (choice.mapLines f).label = choice.label := by
  cases choice <;> rfl

@[simp] theorem Choice.line_mapLines (choice : Choice) :
    (choice.mapLines f).line = f choice.line := by
  cases choice <;> rfl

@[simp] theorem Choice.isShortcut_mapLines (choice : Choice) :
    (choice.mapLines f).isShortcut = choice.isShortcut := by
  cases choice <;> rfl

theorem Offer.ofChoices_mapLines (choices : List Choice) :
    Offer.ofChoices (choices.map (Choice.mapLines f)) = (Offer.ofChoices choices).mapLines f := by
  simp [Offer.ofChoices, Offer.mapLines, Function.comp_def]

theorem Statement.choice?_mapLines (s : Statement) :
    (s.mapLines f).choice? =
      s.choice?.map fun found => (found.1.mapLines f, found.2.map (Expr.mapLines f)) := by
  cases s <;> rfl

theorem Frame.accepts_mapLines (frame : Frame) (choice : Choice) :
    (frame.mapLines f).accepts (choice.mapLines f) = frame.accepts choice := by
  simp only [Frame.accepts, Frame.mapLines, List.getLast?_map]
  cases frame.choices.getLast? <;> simp

theorem Run.currentNode_mapLines (r : Run) : (r.mapLines f).currentNode = r.currentNode := by
  simp only [Run.currentNode, Run.mapLines, List.head?_map, Option.map_map]
  rfl

theorem Run.enterBlock_mapLines (r : Run) (body : List Statement) :
    (r.enterBlock body).mapLines f =
      (r.mapLines f).enterBlock (Statement.blockMapLines f body) := by
  cases body with
  | nil => rfl
  | cons s body =>
    simp only [Run.enterBlock, Statement.blockMapLines, List.isEmpty_cons, Bool.false_eq_true,
      if_false, Run.currentNode_mapLines]
    rfl

def Run.bodyMapLines : Except RunError (List Statement) → Except RunError (List Statement)
  | .ok body => .ok (Statement.blockMapLines f body)
  | .error e => .error (e.mapLines f)

theorem Run.chooseBranch_mapLines (s : Session) (branches : List Branch) :
    chooseBranch s (Statement.branchesMapLines f branches) =
      (bodyMapLines f (chooseBranch s branches).1, (chooseBranch s branches).2) := by
  induction branches generalizing s with
  | nil => rfl
  | cons branch branches ih =>
    obtain ⟨line, condition, body⟩ := branch
    rw [Statement.branchesMapLines, chooseBranch, chooseBranch, Branch.condition,
      Session.holds_mapLines, Branch.condition]
    obtain ⟨err | held, s'⟩ := s.holds condition
    · rfl
    · cases held with
      | true => rfl
      | false => exact ih s'

end

theorem RunError.mapLines_id (e : RunError) : e.mapLines id = e := by
  cases e <;> rfl

theorem Choice.mapLines_id : Choice.mapLines id = id := by
  funext choice
  cases choice with
  | link | option => rfl
  | shortcut line label body => rw [Choice.mapLines, Statement.blockMapLines_id, id, id]

theorem Offer.mapLines_id : Offer.mapLines id = id := by
  funext o
  rw [Offer.mapLines, List.map_id, id]

theorem Frame.mapLines_id : Frame.mapLines id = id := by
  funext frame
  rw [Frame.mapLines, Statement.blockMapLines_id, Choice.mapLines_id, List.map_id, id]

theorem Pending.mapLines_id : Pending.mapLines id = id := by
  funext p
  rw [Pending.mapLines, Choice.mapLines_id, List.map_id, id]

theorem Run.mapLines_id (r : Run) : r.mapLines id = r := by
  rw [Run.mapLines, Frame.mapLines_id, List.map_id, Pending.mapLines_id, Option.map_id, id]

theorem Cue.mapLines_id (c : Cue) : c.mapLines id = c := by
  cases c with
  | text | command | complete => rfl
  | options number offer => rw [Cue.mapLines, Offer.mapLines_id, id]

theorem Progress.mapLines_id (progress : Progress) : progress.mapLines id = progress := by
  cases progress with
  | silent | ended | waiting => rfl
  | cue c => rw [Progress.mapLines, Cue.mapLines_id]
  | failed e => rw [Progress.mapLines, RunError.mapLines_id]

end Dialogue
