import Dialogue.Host

/-!
# Whatever a host has done before

Between and during runs a host may load nodes, start and give up runs, ask them to
go on, answer their offers, and change functions and variables, in any order. What
every such history keeps holds of every stage that a host can come to. The library
is one such thing: a parsed body that is kept is the parse of the body loaded under
its title (`Library.Coherent`), so keeping it cannot be told from parsing anew.
-/

namespace Dialogue

inductive Host.Action where
  | load (nodes : List Node)
  | register (name : String) (function : HostFunction)
  | setStorage (kind : StorageKind) (store : Table Value)
  | setVariable (name : String) (value : Value)
  | readVariable (name : String)
  | begin (title : String)
  | dropRun
  /-- Asks the run to go on, for at most so many silent steps. -/
  | next (limit : Nat)
  | select (offer : Option Nat) (index : Nat)

namespace Host

def act (h : Host) : Action → Host
  | .load nodes => h.load nodes
  | .register name function => h.register name function
  | .setStorage kind store => h.setStorage kind store
  | .setVariable name value =>
    match h.setVariable name value with
    | .ok h => h
    | .error _ => h
  | .readVariable name => (h.readVariable name).2
  | .begin title => h.begin title
  | .dropRun => h.dropRun
  | .next limit =>
    match h.run with
    | none => h
    | some run =>
      match run.next limit h.stage with
      | (_, stage, run) => { h with stage := stage, run := some run }.collect
  | .select offer index =>
    match h.select offer index with
    | .ok h => h
    | .error _ => h

def after (history : List Action) : Host := history.foldl act {}

end Host

/-! ### Coherent libraries -/

def Library.parsedBody (nodes : Table Node) (title : String) : Except RunError (List Statement) :=
  match nodes.get? title with
  | none => .error (.nodeNotFound title)
  | some node =>
    match Statement.ofBody node.body.toList with
    | .error e => .error (.parse title e)
    | .ok statements => .ok statements

/-- What is kept of a body is what parsing it anew would give. -/
def Library.Coherent (l : Library) : Prop :=
  ∀ title statements, l.parsed.get? title = some statements →
    parsedBody l.nodes title = .ok statements

theorem Table.get?_erase_self {α : Type} (t : Table α) (name : String) :
    (t.erase name).get? name = none := by
  rw [get?, List.lookup_eq_none_iff]
  intro entry he
  have hne : entry.1 ≠ name := by simpa [erase] using (List.mem_filter.1 he).2
  simpa using Ne.symm hne

theorem Table.get?_erase_of_ne {α : Type} (t : Table α) (name other : String) (h : other ≠ name) :
    (t.erase name).get? other = t.get? other := by
  unfold erase get?
  induction t.entries with
  | nil => rfl
  | cons entry rest ih =>
    by_cases hk : entry.1 = name
    · have hb : (other == entry.1) = false := by simpa [hk] using h
      rw [List.filter_cons_of_neg (by simp [hk]), ih]
      obtain ⟨key, value⟩ := entry
      simp only at hb
      rw [List.lookup_cons, hb]
    · rw [List.filter_cons_of_pos (by simpa using hk)]
      obtain ⟨key, value⟩ := entry
      rw [List.lookup_cons, List.lookup_cons, ih]

namespace Library

theorem coherent_empty : Coherent {} := by
  intro title statements h
  cases h

theorem parsedBody_insert_of_ne (nodes : Table Node) (node : Node) (title : String)
    (h : title ≠ node.title) :
    parsedBody (nodes.insert node.title node) title = parsedBody nodes title := by
  unfold parsedBody
  rw [Table.get?_insert_of_ne nodes node.title title node h]

theorem Coherent.loadNode {l : Library} (h : l.Coherent) (node : Node) :
    (l.loadNode node).Coherent := by
  unfold Library.loadNode
  split
  · exact h
  · intro title statements ht
    by_cases he : title = node.title
    · subst he
      rw [Table.get?_erase_self] at ht
      cases ht
    · rw [Table.get?_erase_of_ne l.parsed node.title title he] at ht
      rw [parsedBody_insert_of_ne l.nodes node title he]
      exact h title statements ht

theorem Coherent.load {l : Library} (h : l.Coherent) (nodes : List Node) :
    (l.load nodes).Coherent := by
  unfold Library.load
  induction nodes generalizing l with
  | nil => exact h
  | cons node nodes ih => exact ih (h.loadNode node)

/-- A look-up gives what parsing anew would give, keeps the nodes, and keeps the library
coherent. -/
theorem Coherent.statements {l : Library} (h : l.Coherent) (title : String) :
    (l.statements title).1 = parsedBody l.nodes title ∧
      (l.statements title).2.nodes = l.nodes ∧ (l.statements title).2.Coherent := by
  unfold Library.statements
  cases hp : l.parsed.get? title with
  | some statements => exact ⟨(h title statements hp).symm, rfl, h⟩
  | none =>
    cases hn : l.nodes.get? title with
    | none => exact ⟨by simp [parsedBody, hn], rfl, h⟩
    | some node =>
      cases ho : Statement.ofBody node.body.toList with
      | error e =>
        simp only [ho]
        exact ⟨by simp [parsedBody, hn, ho], trivial, h⟩
      | ok statements =>
        have hb : parsedBody l.nodes title = .ok statements := by simp [parsedBody, hn, ho]
        simp only [ho]
        refine ⟨hb.symm, trivial, fun other kept hk => ?_⟩
        by_cases he : other = title
        · subst he
          rw [Table.get?_insert_self] at hk
          cases hk
          exact hb
        · rw [Table.get?_insert_of_ne l.parsed title other statements he] at hk
          exact h other kept hk

end Library

namespace Run

/-- What every piece of a step leaves alone: whether the run has ended, and the library, apart
from one look-up. -/
structure Keeps (g : Stage) (r : Run) (outcome : Outcome) : Prop where
  done : outcome.2.2.done = r.done
  library : outcome.2.1.library = g.library ∨
    ∃ title, outcome.2.1.library = (g.library.statements title).2

theorem enterNode_keeps (g : Stage) (r : Run) (title : String) :
    Keeps g r (enterNode g r title) := by
  unfold enterNode
  split <;> rename_i hl <;> exact ⟨rfl, Or.inr ⟨title, by rw [hl]⟩⟩

theorem enterBlock_done (r : Run) (body : List Statement) : (r.enterBlock body).done = r.done := by
  unfold enterBlock
  split <;> rfl

theorem follow_keeps (g : Stage) (r : Run) (choice : Choice) : Keeps g r (follow g r choice) := by
  cases choice with
  | link line destination => exact enterNode_keeps g r destination
  | option line label destination => exact enterNode_keeps g r destination
  | shortcut line label body => exact ⟨enterBlock_done r body, Or.inl rfl⟩

theorem present_keeps (g : Stage) (r : Run) (choices : List Choice) :
    Keeps g r (present g r choices) := by
  unfold present
  split
  · exact ⟨rfl, Or.inl rfl⟩
  · exact follow_keeps g r _
  · exact ⟨rfl, Or.inl rfl⟩

theorem execute_keeps (g : Stage) (r : Run) (s : Statement) : Keeps g r (execute g r s) := by
  unfold execute
  split
  · exact ⟨rfl, Or.inl rfl⟩
  · split <;> exact ⟨rfl, Or.inl rfl⟩
  · split <;> exact ⟨rfl, Or.inl rfl⟩
  · split
    · exact ⟨rfl, Or.inl rfl⟩
    · exact ⟨enterBlock_done r _, Or.inl rfl⟩
  · exact ⟨rfl, Or.inl rfl⟩

theorem gather_keeps (g : Stage) (r : Run) (frame : Frame) (below : List Frame)
    (choice : Choice) : Keeps g r (gather g r frame below choice) := by
  unfold gather
  split
  · exact ⟨rfl, Or.inl rfl⟩
  · have hp := present_keeps g { r with frames := { frame with choices := [choice] } :: below }
      frame.choices
    exact ⟨hp.done, hp.library⟩

theorem take_keeps (g : Stage) (r : Run) (frame : Frame) (below : List Frame) (s : Statement)
    (rest : List Statement) : Keeps g r (take g r frame below s rest) := by
  unfold take
  simp only
  split
  · split
    · exact ⟨rfl, Or.inl rfl⟩
    · exact ⟨rfl, Or.inl rfl⟩
    · rename_i session _
      have hg := gather_keeps { g with session := session } r { frame with rest := rest } below
      exact ⟨(hg _).done, (hg _).library⟩
  · split
    · have he := execute_keeps g { r with frames := { frame with rest := rest } :: below } s
      exact ⟨he.done, he.library⟩
    · have hp := present_keeps g { r with frames := { frame with choices := [] } :: below }
        frame.choices
      exact ⟨hp.done, hp.library⟩

theorem leave_keeps (g : Stage) (r : Run) (frame : Frame) (below : List Frame) :
    Keeps g r (leave g r frame below) := by
  unfold leave
  split
  · exact ⟨rfl, Or.inl rfl⟩
  · have hp := present_keeps g { r with frames := { frame with choices := [] } :: below }
      frame.choices
    exact ⟨hp.done, hp.library⟩

theorem resume_keeps (g : Stage) (r : Run) (pending : Pending) :
    Keeps g r (resume g r pending) := by
  unfold resume
  split
  · exact ⟨rfl, Or.inl rfl⟩
  · split
    · exact ⟨rfl, Or.inl rfl⟩
    · rename_i choice _
      have hf := follow_keeps g { r with pending := none } choice
      exact ⟨hf.done, hf.library⟩

theorem step_keeps (g : Stage) (r : Run) : Keeps g r (step g r) := by
  unfold step
  split
  · have he := enterNode_keeps g { r with start := none }
    exact ⟨(he _).done, (he _).library⟩
  · exact resume_keeps g r _
  · exact ⟨rfl, Or.inl rfl⟩
  · split
    · exact leave_keeps g r _ _
    · exact take_keeps g r _ _ _ _

theorem Keeps.coherent {g : Stage} {r : Run} {outcome : Outcome} (h : Keeps g r outcome)
    (hc : g.library.Coherent) : outcome.2.1.library.Coherent := by
  rcases h.library with hl | ⟨title, hl⟩
  · rw [hl]
    exact hc
  · rw [hl]
    exact (hc.statements title).2.2

theorem advance_coherent (limit : Nat) (g : Stage) (r : Run) (h : g.library.Coherent) :
    (advance limit g r).2.1.library.Coherent := by
  induction limit generalizing g r with
  | zero => exact h
  | succ limit ih =>
    have hs := (step_keeps g r).coherent h
    unfold advance
    split
    · rename_i g' r' he
      rw [he] at hs
      exact ih g' r' hs
    · exact hs

theorem next_coherent (limit : Nat) (g : Stage) (r : Run) (h : g.library.Coherent) :
    (next limit g r).2.1.library.Coherent := by
  have ha := advance_coherent limit g r h
  unfold next
  split
  · exact h
  · split <;> rename_i he <;> rw [he] at ha <;> exact ha

end Run

namespace Host

theorem select_library (h h' : Host) (offer : Option Nat) (index : Nat)
    (hs : h.select offer index = .ok h') : h'.stage.library = h.stage.library := by
  unfold select Stage.select at hs
  cases ho : h.stage.offers[h.offerNumber offer]? with
  | none => simp [ho] at hs
  | some o =>
    cases hr : o.select index with
    | error e => simp [ho, hr] at hs
    | ok o' =>
      simp only [ho, hr, Option.map_some, Except.ok.injEq] at hs
      rw [← hs]

theorem setVariable_library (h h' : Host) (name : String) (value : Value)
    (hs : h.setVariable name value = .ok h') : h'.stage.library = h.stage.library := by
  unfold setVariable at hs
  split at hs
  · cases hs
  · cases hs
    rfl

theorem act_coherent (h : Host) (a : Action) (hc : h.stage.library.Coherent) :
    (h.act a).stage.library.Coherent := by
  cases a with
  | load nodes => exact hc.load nodes
  | register name function => exact hc
  | setStorage kind store => exact hc
  | setVariable name value =>
    simp only [act]
    split
    · rename_i h' hs
      rw [setVariable_library h h' name value hs]
      exact hc
    · exact hc
  | readVariable name => exact hc
  | begin title => exact hc
  | dropRun => exact hc
  | next limit =>
    simp only [act]
    split
    · exact hc
    · rename_i run _
      exact Run.next_coherent limit h.stage run hc
  | select offer index =>
    simp only [act]
    split
    · rename_i h' hs
      rw [select_library h h' offer index hs]
      exact hc
    · exact hc

theorem foldl_act_coherent (history : List Action) (h : Host) (hc : h.stage.library.Coherent) :
    (history.foldl act h).stage.library.Coherent := by
  induction history generalizing h with
  | nil => exact hc
  | cons a history ih => exact ih (h.act a) (act_coherent h a hc)

theorem after_coherent (history : List Action) : (after history).stage.library.Coherent :=
  foldl_act_coherent history {} Library.coherent_empty

end Host

end Dialogue
