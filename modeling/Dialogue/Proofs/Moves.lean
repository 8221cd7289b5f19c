import Dialogue.Proofs.Conditions
import Dialogue.Proofs.Refinement

/-!
# What a step can be

Every step of a run is one of few moves, each with what it finds and what it does
(`Run.step_move`). Following a choice or carrying out a statement opens at most one
frame, and nothing waits in that (`Run.Opens`). A call of the host is made of silent
steps and at most one other (`Run.advance_cases`).
-/

namespace Dialogue

namespace Run

/-- The run is inside a frame, and waits for nothing. -/
structure Playing (r : Run) (frame : Frame) (below : List Frame) : Prop where
  start : r.start = none
  pending : r.pending = none
  frames : r.frames = frame :: below

/-- What a step finds, and what it comes to. -/
inductive Move (g : Stage) (r : Run) : Outcome → Prop
  | enter (title : String) (start : r.start = some title) :
    Move g r (enterNode g { r with start := none } title)
  | wait (p : Pending) (start : r.start = none) (pending : r.pending = some p)
    (selection : g.selection p.offer = none) : Move g r (.waiting, g, r)
  | stray (p : Pending) (index : Nat) (start : r.start = none) (pending : r.pending = some p)
    (selection : g.selection p.offer = some index) (choice : p.choices[index]? = none) :
    Move g r (.failed (.invalidSelection index p.choices.length), g, r)
  | resume (p : Pending) (index : Nat) (choice : Choice) (start : r.start = none)
    (pending : r.pending = some p) (selection : g.selection p.offer = some index)
    (found : p.choices[index]? = some choice) :
    Move g r (follow g { r with pending := none } choice)
  | finish (start : r.start = none) (pending : r.pending = none) (frames : r.frames = []) :
    Move g r (.ended, g, r)
  | leave (frame : Frame) (below : List Frame) (playing : r.Playing frame below)
    (rest : frame.rest = []) (choices : frame.choices = []) :
    Move g r (if frame.endsNode then .cue (.complete frame.node) else .silent, g,
      { r with frames := below })
  /-- What waits is presented before the frame is left or a plain statement is carried out. -/
  | flush (frame : Frame) (below : List Frame) (playing : r.Playing frame below)
    (choices : frame.choices ≠ []) (plain : ∀ s ∈ frame.rest.head?, s.choice? = none) :
    Move g r (present g { r with frames := { frame with choices := [] } :: below } frame.choices)
  | execute (frame : Frame) (below : List Frame) (s : Statement) (rest : List Statement)
    (playing : r.Playing frame below) (here : frame.rest = s :: rest)
    (choices : frame.choices = []) (plain : s.choice? = none) :
    Move g r (execute g { r with frames := { frame with rest := rest } :: below } s)
  | fail (frame : Frame) (below : List Frame) (s : Statement) (rest : List Statement)
    (choice : Choice) (condition : Option Expr) (e : RunError) (session : Session)
    (playing : r.Playing frame below) (here : frame.rest = s :: rest)
    (found : s.choice? = some (choice, condition))
    (holds : g.session.holds condition = (.error e, session)) :
    Move g r (.failed e, { g with session := session },
      { r with frames := { frame with rest := rest } :: below })
  | drop (frame : Frame) (below : List Frame) (s : Statement) (rest : List Statement)
    (choice : Choice) (condition : Option Expr) (session : Session)
    (playing : r.Playing frame below) (here : frame.rest = s :: rest)
    (found : s.choice? = some (choice, condition))
    (holds : g.session.holds condition = (.ok false, session)) :
    Move g r (.silent, { g with session := session },
      { r with frames := { frame with rest := rest } :: below })
  | gather (frame : Frame) (below : List Frame) (s : Statement) (rest : List Statement)
    (choice : Choice) (condition : Option Expr) (session : Session)
    (playing : r.Playing frame below) (here : frame.rest = s :: rest)
    (found : s.choice? = some (choice, condition))
    (holds : g.session.holds condition = (.ok true, session))
    (accepts : frame.accepts choice = true) :
    Move g r (.silent, { g with session := session },
      { r with frames :=
        { frame with rest := rest, choices := frame.choices ++ [choice] } :: below })
  /-- A choice of the other kind has what waits presented, and waits in its place. -/
  | change (frame : Frame) (below : List Frame) (s : Statement) (rest : List Statement)
    (choice : Choice) (condition : Option Expr) (session : Session)
    (playing : r.Playing frame below) (here : frame.rest = s :: rest)
    (found : s.choice? = some (choice, condition))
    (holds : g.session.holds condition = (.ok true, session))
    (refuses : frame.accepts choice = false) :
    Move g r (present { g with session := session }
      { r with frames := { frame with rest := rest, choices := [choice] } :: below }
      frame.choices)

theorem resume_move {g : Stage} {r : Run} {p : Pending} (hs : r.start = none)
    (hp : r.pending = some p) : Move g r (resume g r p) := by
  unfold resume
  split
  · rename_i hn
    exact .wait p hs hp hn
  · rename_i index hi
    split
    · rename_i hc
      exact .stray p index hs hp hi hc
    · rename_i choice hc
      exact .resume p index choice hs hp hi hc

theorem leave_move {g : Stage} {r : Run} {frame : Frame} {below : List Frame}
    (h : r.Playing frame below) (hr : frame.rest = []) : Move g r (leave g r frame below) := by
  unfold leave
  split
  · rename_i hc
    exact .leave frame below h hr (List.isEmpty_iff.1 hc)
  · rename_i hc
    refine .flush frame below h (fun hn => hc (List.isEmpty_iff.2 hn)) ?_
    simp [hr]

theorem take_move {g : Stage} {r : Run} {frame : Frame} {below : List Frame} {s : Statement}
    {rest : List Statement} (h : r.Playing frame below) (hr : frame.rest = s :: rest) :
    Move g r (take g r frame below s rest) := by
  unfold take
  simp only
  split
  · rename_i choice condition hc
    split
    · rename_i e session hh
      exact .fail frame below s rest choice condition e session h hr hc hh
    · rename_i session hh
      exact .drop frame below s rest choice condition session h hr hc hh
    · rename_i session hh
      unfold gather
      split
      · rename_i ha
        exact .gather frame below s rest choice condition session h hr hc hh ha
      · rename_i ha
        exact .change frame below s rest choice condition session h hr hc hh
          (Bool.not_eq_true _ ▸ ha)
  · rename_i hc
    split
    · rename_i he
      exact .execute frame below s rest h hr (List.isEmpty_iff.1 he) hc
    · rename_i he
      refine .flush frame below h (fun hn => he (List.isEmpty_iff.2 hn)) ?_
      simpa [hr] using hc

theorem step_move (g : Stage) (r : Run) : Move g r (step g r) := by
  unfold step
  split
  · rename_i title hs
    exact .enter title hs
  · rename_i p hs hp
    exact resume_move hs hp
  · rename_i hs hp hf
    exact .finish hs hp hf
  · rename_i frame below hs hp hf
    have h : r.Playing frame below := ⟨hs, hp, hf⟩
    split
    · rename_i hr
      exact leave_move h hr
    · rename_i s rest hr
      exact take_move h hr

/-! ### Opening frames -/

/-- Something is done that presents nothing: at most one frame is opened, or all are closed. -/
structure Opens (g : Stage) (r : Run) (outcome : Outcome) : Prop where
  offers : outcome.2.1.offers = g.offers
  start : outcome.2.2.start = r.start
  pending : outcome.2.2.pending = r.pending
  frames : outcome.2.2.frames = r.frames ∨ outcome.2.2.frames = [] ∨
    ∃ frame : Frame, frame.choices = [] ∧ outcome.2.2.frames = frame :: r.frames
  progress : outcome.1 ≠ .waiting ∧ ∀ number offer, outcome.1 ≠ .cue (.options number offer)
  failed : ∀ e, outcome.1 = .failed e → e.isSelection = false

theorem enterNode_opens (g : Stage) (r : Run) (title : String) :
    Opens g r (enterNode g r title) := by
  unfold enterNode
  split
  · rename_i e library hl
    refine ⟨rfl, rfl, rfl, Or.inl rfl, by simp, fun err he => ?_⟩
    cases he
    unfold Library.statements at hl
    split at hl
    · cases hl
    · split at hl
      · cases hl
        rfl
      · split at hl
        · cases hl
          rfl
        · cases hl
  · exact ⟨rfl, rfl, rfl, Or.inr (Or.inr ⟨_, rfl, rfl⟩), by simp, by simp⟩

theorem enterBlock_opens (g : Stage) (r : Run) (body : List Statement) :
    Opens g r (.silent, g, r.enterBlock body) := by
  unfold enterBlock
  split
  · exact ⟨rfl, rfl, rfl, Or.inl rfl, by simp, by simp⟩
  · exact ⟨rfl, rfl, rfl, Or.inr (Or.inr ⟨_, rfl, rfl⟩), by simp, by simp⟩

theorem follow_opens (g : Stage) (r : Run) (choice : Choice) :
    Opens g r (follow g r choice) := by
  cases choice with
  | link line destination => exact enterNode_opens g r destination
  | option line label destination => exact enterNode_opens g r destination
  | shortcut line label body => exact enterBlock_opens g r body

theorem chooseBranch_kept {R : Session → Session → Prop} (hR : Session.Kept R)
    (branches : List Branch) (s : Session) : R s (chooseBranch s branches).2 := by
  induction branches generalizing s with
  | nil => exact hR.refl s
  | cons branch branches ih =>
    have hh := s.holds_kept hR branch.condition
    unfold chooseBranch
    split <;> rename_i s' he <;> rw [he] at hh
    · exact hh
    · exact hh
    · exact hR.trans hh (ih s')

theorem chooseBranch_error {branches : List Branch} {s : Session} {err : RunError}
    (h : (chooseBranch s branches).1 = .error err) : err.isSelection = false := by
  induction branches generalizing s with
  | nil => cases h
  | cons branch branches ih =>
    unfold chooseBranch at h
    split at h
    · rename_i hh
      cases h
      exact Session.holds_error (by rw [hh])
    · cases h
    · exact ih h

theorem execute_opens (g : Stage) (r : Run) (s : Statement) : Opens g r (execute g r s) := by
  unfold execute
  split
  · exact ⟨rfl, rfl, rfl, Or.inl rfl, by simp, by simp⟩
  · split
    · exact ⟨rfl, rfl, rfl, Or.inr (Or.inl rfl), by simp, by simp⟩
    · exact ⟨rfl, rfl, rfl, Or.inl rfl, by simp, by simp⟩
  · split
    · rename_i ha
      refine ⟨rfl, rfl, rfl, Or.inl rfl, by simp, fun err he => ?_⟩
      cases he
      exact Session.assign_error (by rw [ha])
    · exact ⟨rfl, rfl, rfl, Or.inl rfl, by simp, by simp⟩
  · split
    · rename_i hb
      refine ⟨rfl, rfl, rfl, Or.inl rfl, by simp, fun err he => ?_⟩
      cases he
      exact chooseBranch_error (by rw [hb])
    · rename_i body session _
      have ho := enterBlock_opens g r body
      exact ⟨rfl, ho.start, ho.pending, ho.frames, by simp, by simp⟩
  · exact ⟨rfl, rfl, rfl, Or.inl rfl, by simp, by simp⟩

/-- Choices that are presented and not followed unasked. -/
structure Presentable (choices : List Choice) : Prop where
  ne_nil : choices ≠ []
  not_lone : ∀ line destination, choices ≠ [.link line destination]

theorem present_cases (g : Stage) (r : Run) (choices : List Choice) :
    (Opens g r (present g r choices) ∧ ¬Presentable choices) ∨
      Presentable choices ∧ present g r choices =
        (.cue (.options g.offers.length (.ofChoices choices)),
          { g with offers := g.offers ++ [.ofChoices choices] },
          { r with pending := some ⟨g.offers.length, choices⟩ }) := by
  unfold present
  split
  · exact Or.inl ⟨⟨rfl, rfl, rfl, Or.inl rfl, by simp, by simp⟩, fun h => h.ne_nil rfl⟩
  · exact Or.inl ⟨follow_opens g r _, fun h => h.not_lone _ _ rfl⟩
  · rename_i hn hl
    exact Or.inr ⟨⟨hn, hl⟩, rfl⟩

def report : Outcome → Answer × Stage × Run
  | (.cue c, g, r) => (.cue c, g, r)
  | (.ended, g, r) => (.finished, g, r.ended)
  | (.waiting, g, r) => (.failed .unresolvedChoice, g, r)
  | (.failed e, g, r) => (.failed e, g, r.broken)
  | (.silent, g, r) => (.unsettled, g, r)

theorem report_stage (o : Outcome) : (report o).2.1 = o.2.1 := by
  obtain ⟨progress, g, r⟩ := o
  cases progress <;> rfl

theorem report_congr {R : Stage → Stage → Prop} {o o' : Outcome} (hprogress : o.1 = o'.1)
    (hrun : o.2.2 = o'.2.2) (hstage : R o.2.1 o'.2.1) :
    (report o).1 = (report o').1 ∧ (report o).2.2 = (report o').2.2 ∧
      R (report o).2.1 (report o').2.1 := by
  rw [report_stage, report_stage]
  obtain ⟨progress, g, r⟩ := o
  obtain ⟨progress', g', r'⟩ := o'
  simp only at hprogress hrun
  subst hprogress hrun
  cases progress <;> exact ⟨rfl, rfl, hstage⟩

theorem next_of_done {limit : Nat} {g : Stage} {r : Run} (h : r.done = true) :
    next limit g r = (.finished, g, r) := by
  simp [next, h]

theorem next_of_not_done {limit : Nat} {g : Stage} {r : Run} (h : r.done = false) :
    next limit g r = report (advance limit g r) := by
  simp only [next, h, Bool.false_eq_true, if_false]
  split <;> rename_i he <;> rw [he] <;> rfl

/-- Silent steps that keep a property end at the limit, or in front of one step that is not
silent. -/
theorem advance_cases {P : Stage → Run → Prop}
    (hstep : ∀ g r, P g r → (step g r).1 = .silent → P (step g r).2.1 (step g r).2.2)
    (limit : Nat) {g : Stage} {r : Run} (h : P g r) :
    (∃ g' r', P g' r' ∧ advance limit g r = (.silent, g', r')) ∨
      ∃ g' r', P g' r' ∧ (step g' r').1 ≠ .silent ∧ advance limit g r = step g' r' := by
  induction limit generalizing g r with
  | zero => exact Or.inl ⟨g, r, h, rfl⟩
  | succ limit ih =>
    unfold advance
    split
    · rename_i g' r' he
      have hs := hstep g r h (by rw [he])
      rw [he] at hs
      exact ih hs
    · rename_i hne
      exact Or.inr ⟨g, r, h, fun hs => hne (step g r).2.1 (step g r).2.2 (by rw [← hs]), rfl⟩

end Run

end Dialogue
