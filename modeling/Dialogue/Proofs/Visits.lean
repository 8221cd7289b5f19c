import Dialogue.Proofs.Exchange

/-!
# Visits of nodes

A visit begins where a step enters a node and ends with the cue that completes it.
Frames for the bodies of branches and shortcuts lie between those of nodes and carry
the title of the node around them (`Inherits`). Each step does to the frames what it
tells about visits (`Run.Visiting.step`), so the frames of nodes are the visits that
are open, and a whole run is one visit with all others nested in it. What stops or
breaks a run closes every visit at once, and nothing happens behind it.
-/

namespace Dialogue

/-- What a step does that has to do with visits, or tells the host. -/
inductive Happening where
  | entered (title : String)
  | told (cue : Cue)
  /-- The command to stop is carried out. -/
  | stopped
  | failed (e : RunError)
deriving DecidableEq

namespace Happening

def isClosing : Happening → Bool
  | .stopped => true
  | .failed _ => true
  | _ => false

/-- The open visits behind something that happens, innermost first. -/
def visit (opened : List String) : Happening → List String
  | .entered title => title :: opened
  | .told (.complete _) => opened.tail
  | .told _ => opened
  | .stopped => []
  | .failed _ => []

/-- A line, a command or the end of a node belongs to the innermost open visit. -/
def Fits (opened : List String) : Happening → Prop
  | .told (.text _ node _) => opened.head? = some node
  | .told (.command _ node _) => opened.head? = some node
  | .told (.complete title) => opened.head? = some title
  | _ => True

end Happening

def visits (happenings : List Happening) : List String := happenings.foldl Happening.visit []

def Choice.destination? : Choice → Option String
  | .link _ destination => some destination
  | .option _ _ destination => some destination
  | .shortcut .. => none

/-- Whether a step turns to the choices that wait in a frame, and not to what stands behind
them. -/
def Frame.isDue (s : Session) (frame : Frame) : Bool :=
  match frame.rest.head?.bind Statement.choice? with
  | none => true
  | some (choice, condition) =>
    match (s.holds condition).1 with
    | .ok true => !frame.accepts choice
    | _ => false

theorem Frame.isDue_of_plain {frame : Frame}
    (h : ∀ s ∈ frame.rest.head?, s.choice? = none) (session : Session) :
    frame.isDue session = true := by
  have hnone : frame.rest.head?.bind Statement.choice? = none := by
    cases hr : frame.rest.head? with
    | none => rfl
    | some s => exact h s hr
  rw [Frame.isDue, hnone]

namespace Run

def loneLink? : List Choice → Option String
  | [.link _ destination] => some destination
  | _ => none

theorem loneLink?_eq_none {choices : List Choice}
    (h : ∀ line destination, choices ≠ [.link line destination]) : loneLink? choices = none := by
  unfold loneLink?
  split
  · exact absurd rfl (h _ _)
  · rfl

/-- The node that a step sets out for: the start node, the destination of the selected choice, or
that of a link that stands alone. -/
def heading? (g : Stage) (r : Run) : Option String :=
  match r.start, r.pending, r.frames with
  | some title, _, _ => some title
  | none, some p, _ => ((g.selection p.offer).bind (p.choices[·]?)).bind Choice.destination?
  | none, none, [] => none
  | none, none, frame :: _ => if frame.isDue g.session then loneLink? frame.choices else none

def isOpenable (g : Stage) (title : String) : Bool := (g.library.statements title).1.isOk

def isStop : Statement → Bool
  | .command _ content => content == stopCommand
  | _ => false

def stops (r : Run) : Bool :=
  match r.start, r.pending, r.frames with
  | none, none, frame :: _ => frame.choices.isEmpty && frame.rest.head?.any isStop
  | _, _, _ => false

/-- What a step does, given the node it enters, whether it stops, and what it comes to. -/
def noted (entered : Option String) (stops : Bool) (progress : Progress) : Option Happening :=
  match entered, progress with
  | some title, _ => some (.entered title)
  | none, .cue c => some (.told c)
  | none, .failed e => some (.failed e)
  | none, _ => if stops then some .stopped else none

def happening? (g : Stage) (r : Run) : Option Happening :=
  noted ((heading? g r).filter (isOpenable g)) r.stops (step g r).1

def happenings : (limit : Nat) → Stage → Run → List Happening
  | 0, _, _ => []
  | limit + 1, g, r =>
    (happening? g r).toList ++
      match step g r with
      | (.silent, g, r) => happenings limit g r
      | _ => []

/-! ### Frames of nodes -/

def nodeTitles (frames : List Frame) : List String :=
  (frames.filter Frame.endsNode).map Frame.node

/-- A frame that is no body of a node carries the title of the node around it. -/
def Inherits : List Frame → Prop
  | [] => True
  | frame :: below =>
    (frame.endsNode = false → (nodeTitles below).head? = some frame.node) ∧ Inherits below

theorem nodeTitles_cons (frame : Frame) (below : List Frame) :
    nodeTitles (frame :: below) =
      if frame.endsNode then frame.node :: nodeTitles below else nodeTitles below := by
  cases h : frame.endsNode <;> simp [nodeTitles, h]

theorem Inherits.head? {frame : Frame} {below : List Frame} (h : Inherits (frame :: below)) :
    (nodeTitles (frame :: below)).head? = some frame.node := by
  rw [nodeTitles_cons]
  cases he : frame.endsNode with
  | true => rfl
  | false => exact h.1 he

/-- The frames that lie open belong to these visits. -/
structure Stacked (opened : List String) (frames : List Frame) : Prop where
  titles : nodeTitles frames = opened
  inherits : Inherits frames

section

variable {opened : List String} {frame : Frame} {frames below : List Frame}

theorem stacked_nil : Stacked [] [] := ⟨rfl, trivial⟩

theorem Stacked.eq_nil (h : Stacked [] frames) : frames = [] := by
  cases frames with
  | nil => rfl
  | cons frame below =>
    have hh := h.inherits.head?
    rw [h.titles] at hh
    cases hh

theorem Stacked.head? (h : Stacked opened (frame :: below)) : opened.head? = some frame.node := by
  rw [← h.titles]
  exact h.inherits.head?

theorem Stacked.top {rest : List Statement} {choices : List Choice}
    (h : Stacked opened (frame :: below)) :
    Stacked opened ({ frame with rest := rest, choices := choices } :: below) := by
  refine ⟨?_, h.inherits.1, h.inherits.2⟩
  rw [← h.titles, nodeTitles_cons, nodeTitles_cons]

theorem Stacked.enter (h : Stacked opened frames) (title : String) (body : List Statement) :
    Stacked (title :: opened) ({ node := title, rest := body, endsNode := true } :: frames) := by
  refine ⟨?_, nofun, h.inherits⟩
  rw [nodeTitles_cons, if_pos rfl, h.titles]

theorem Stacked.leave (h : Stacked opened (frame :: below)) :
    Stacked (if frame.endsNode then opened.tail else opened) below := by
  refine ⟨?_, h.inherits.2⟩
  rw [← h.titles, nodeTitles_cons]
  cases frame.endsNode <;> rfl

theorem Stacked.enterBlock {r : Run} (h : Stacked opened r.frames) (ho : opened ≠ [])
    (body : List Statement) : Stacked opened (r.enterBlock body).frames := by
  unfold Run.enterBlock
  split
  · exact h
  · cases hf : r.frames with
    | nil =>
      rw [hf] at h
      exact absurd h.titles.symm ho
    | cons frame below =>
      rw [hf] at h
      have hnode : r.currentNode = frame.node := by simp [currentNode, hf]
      refine ⟨?_, fun _ => ?_, h.inherits⟩
      · rw [nodeTitles_cons, if_neg (by simp)]
        exact h.titles
      · rw [h.titles, hnode]
        exact h.head?

end

structure Visiting (opened : List String) (r : Run) : Prop where
  start : r.start = none
  frames : Stacked opened r.frames
  pending : r.pending ≠ none → opened ≠ []

/-- What is noted of a step fits to the visits around it and to what the step comes to, and the
run goes on inside of the visits that are open then. -/
inductive Minds (opened : List String) : Option Happening → Outcome → Prop
  | silent {g : Stage} {r : Run} (inside : Visiting opened r) : Minds opened none (.silent, g, r)
  | entered {g : Stage} {r : Run} (title : String) (inside : Visiting (title :: opened) r) :
      Minds opened (some (.entered title)) (.silent, g, r)
  | told {g : Stage} {r : Run} (cue : Cue) (fits : Happening.Fits opened (.told cue))
      (inside : Visiting (Happening.visit opened (.told cue)) r) :
      Minds opened (some (.told cue)) (.cue cue, g, r)
  | stopped {g : Stage} {r : Run} (outside : Visiting [] r) :
      Minds opened (some .stopped) (.silent, g, r)
  | failed {g : Stage} {r : Run} (e : RunError) (genuine : e ≠ .unresolvedChoice)
      (start : r.start = none) : Minds opened (some (.failed e)) (.failed e, g, r)
  | waits {g : Stage} {r : Run} (inside : Visiting opened r) : Minds opened none (.waiting, g, r)
  | ends {g : Stage} {r : Run} (outside : opened = []) (rests : Visiting opened r) :
      Minds opened none (.ended, g, r)

section

variable {opened : List String} {g : Stage} {r : Run}

theorem ne_unresolvedChoice {e : RunError} (h : e.isSelection = false) : e ≠ .unresolvedChoice := by
  rintro rfl
  cases h

theorem enterNode_noted (g : Stage) (r : Run) (title : String) (stopping : Bool) :
    (∃ g' body, enterNode g r title = (.silent, g',
        { r with frames := { node := title, rest := body, endsNode := true } :: r.frames }) ∧
      noted ((some title).filter (isOpenable g)) stopping .silent = some (.entered title)) ∨
    ∃ g' e, enterNode g r title = (.failed e, g', r) ∧ e ≠ .unresolvedChoice ∧
      noted ((some title).filter (isOpenable g)) stopping (.failed e) = some (.failed e) := by
  have hfailed := (enterNode_opens g r title).failed
  unfold enterNode isOpenable at *
  split
  · rename_i e library hl
    rw [hl] at hfailed
    have hn : (some title).filter (fun t => (g.library.statements t).1.isOk) = none := by
      simp [Option.filter, hl, Except.isOk, Except.toBool]
    rw [hn]
    exact Or.inr ⟨_, e, rfl, ne_unresolvedChoice (hfailed e rfl), rfl⟩
  · rename_i body library hl
    have hn : (some title).filter (fun t => (g.library.statements t).1.isOk) = some title := by
      simp [Option.filter, hl, Except.isOk, Except.toBool]
    rw [hn]
    exact Or.inl ⟨_, body, rfl, rfl⟩

theorem enterNode_minds (title : String) (stopping : Bool) (hs : r.start = none)
    (hf : Stacked opened r.frames) :
    Minds opened (noted ((some title).filter (isOpenable g)) stopping (enterNode g r title).1)
      (enterNode g r title) := by
  rcases enterNode_noted g r title stopping with ⟨g', body, he, hn⟩ | ⟨g', e, he, hg, hn⟩
  · simp only [he, hn]
    exact .entered title ⟨hs, hf.enter title body, fun _ => List.cons_ne_nil _ _⟩
  · simp only [he, hn]
    exact .failed e hg hs

theorem enterBlock_visiting (hs : r.start = none) (hf : Stacked opened r.frames)
    (ho : opened ≠ []) (body : List Statement) :
    Visiting opened (r.enterBlock body) := by
  have hopens := enterBlock_opens {} r body
  exact ⟨hopens.start.trans hs, hf.enterBlock ho body, fun _ => ho⟩

theorem follow_minds (choice : Choice) (hs : r.start = none) (hf : Stacked opened r.frames)
    (ho : opened ≠ []) :
    Minds opened (noted (choice.destination?.filter (isOpenable g)) false (follow g r choice).1)
      (follow g r choice) := by
  cases choice with
  | link line destination => exact enterNode_minds destination false hs hf
  | option line label destination => exact enterNode_minds destination false hs hf
  | shortcut line label body => exact .silent (enterBlock_visiting hs hf ho body)

theorem present_minds (choices : List Choice) (hs : r.start = none)
    (hf : Stacked opened r.frames) (ho : opened ≠ []) :
    Minds opened (noted ((loneLink? choices).filter (isOpenable g)) false (present g r choices).1)
      (present g r choices) := by
  unfold present
  split
  · exact .silent ⟨hs, hf, fun _ => ho⟩
  · exact follow_minds (.link _ _) hs hf ho
  · rename_i hlone
    rw [loneLink?_eq_none hlone]
    exact .told _ trivial ⟨hs, hf, fun _ => ho⟩

theorem execute_minds (s : Statement) (hs : r.start = none) (hp : r.pending = none)
    (hf : Stacked opened r.frames) (ho : opened ≠ []) :
    Minds opened (noted none (isStop s) (execute g r s).1) (execute g r s) := by
  have hstays : Visiting opened r := ⟨hs, hf, fun _ => ho⟩
  have hnode : opened.head? = some r.currentNode := by
    cases hframes : r.frames with
    | nil =>
      rw [hframes] at hf
      exact absurd hf.titles.symm ho
    | cons frame below =>
      rw [hframes] at hf
      rw [hf.head?]
      simp [currentNode, hframes]
  have hfailed := (execute_opens g r s).failed
  cases s with
  | text line content => exact .told _ hnode hstays
  | command line content =>
    simp only [execute]
    split
    · rename_i hstop
      have hstops : isStop (.command line content) = true := by simp [isStop, hstop]
      rw [hstops]
      exact .stopped ⟨hs, stacked_nil, by simp [hp]⟩
    · exact .told _ hnode hstays
  | assignment line target op value =>
    simp only [execute] at hfailed ⊢
    split
    · rename_i e session ha
      rw [ha] at hfailed
      exact .failed e (ne_unresolvedChoice (hfailed e rfl)) hs
    · exact .silent hstays
  | conditional line branches =>
    simp only [execute] at hfailed ⊢
    split
    · rename_i e session hb
      rw [hb] at hfailed
      exact .failed e (ne_unresolvedChoice (hfailed e rfl)) hs
    · exact .silent (enterBlock_visiting hs hf ho _)
  | link | option | shortcut => exact .silent hstays

theorem Visiting.opened_ne_nil {frame : Frame} {below : List Frame} (h : Visiting opened r)
    (hp : r.Playing frame below) : opened ≠ [] := by
  rintro rfl
  have hnil := h.frames.eq_nil
  rw [hp.frames] at hnil
  cases hnil

theorem Visiting.top {frame : Frame} {below : List Frame} (h : Visiting opened r)
    (hp : r.Playing frame below) : Stacked opened (frame :: below) := by
  rw [← hp.frames]
  exact h.frames

theorem Playing.heading? {frame : Frame} {below : List Frame} (h : r.Playing frame below) :
    heading? g r = if frame.isDue g.session then loneLink? frame.choices else none := by
  rw [Run.heading?, h.start, h.pending, h.frames]

theorem Playing.stops {frame : Frame} {below : List Frame} (h : r.Playing frame below) :
    r.stops = (frame.choices.isEmpty && frame.rest.head?.any isStop) := by
  rw [Run.stops, h.start, h.pending, h.frames]

theorem isStop_of_choice? {s : Statement} {found : Choice × Option Expr}
    (h : s.choice? = some found) : isStop s = false := by
  cases s with
  | command => cases h
  | text | link | option | shortcut | conditional | assignment => rfl

/-- A statement that gives a choice does not stop the run, and has the choices before it presented
only if it is of the other kind. -/
theorem Playing.choice {frame : Frame} {below : List Frame} {s : Statement}
    {rest : List Statement} {choice : Choice} {condition : Option Expr}
    (h : r.Playing frame below) (hr : frame.rest = s :: rest)
    (hc : s.choice? = some (choice, condition)) :
    r.stops = false ∧ Run.heading? g r =
      match (g.session.holds condition).1 with
      | .ok true => if frame.accepts choice then none else loneLink? frame.choices
      | _ => none := by
  refine ⟨?_, ?_⟩
  · simp [h.stops, hr, isStop_of_choice? hc]
  · rw [h.heading?, Frame.isDue, hr]
    simp only [List.head?_cons, Option.bind_some, hc]
    split
    · cases frame.accepts choice <;> rfl
    · rfl

/-- What a run does fits to the visits it is inside of. -/
theorem Visiting.step (g : Stage) (h : Visiting opened r) :
    Minds opened (happening? g r) (Run.step g r) := by
  have hm := step_move g r
  unfold happening?
  generalize Run.step g r = outcome at hm ⊢
  cases hm with
  | enter title start =>
    rw [h.start] at start
    cases start
  | wait p start pending selection =>
    have hh : heading? g r = none := by simp [Run.heading?, start, pending, selection]
    have hst : r.stops = false := by simp [Run.stops, start, pending]
    rw [hh, hst]
    exact .waits h
  | stray p index start pending selection choice =>
    have hh : heading? g r = none := by simp [Run.heading?, start, pending, selection, choice]
    rw [hh]
    exact .failed _ nofun start
  | resume p index choice start pending selection found =>
    have hh : heading? g r = choice.destination? := by
      simp [Run.heading?, start, pending, selection, found]
    have hst : r.stops = false := by simp [Run.stops, start, pending]
    rw [hh, hst]
    exact follow_minds (r := { r with pending := none }) choice h.start h.frames
      (h.pending (by simp [pending]))
  | finish start pending frames =>
    have hh : heading? g r = none := by simp [Run.heading?, start, pending, frames]
    have hst : r.stops = false := by simp [Run.stops, start, pending, frames]
    have hnil : opened = [] := by
      rw [← h.frames.titles, frames]
      rfl
    rw [hh, hst]
    exact .ends hnil h
  | leave frame below playing rest choices =>
    have htop := h.top playing
    have hh : heading? g r = none := by simp [playing.heading?, choices, loneLink?]
    have hst : r.stops = false := by simp [playing.stops, rest]
    rw [hh, hst]
    have hleave := htop.leave
    cases he : frame.endsNode with
    | true =>
      rw [he] at hleave
      exact .told _ htop.head? ⟨h.start, hleave, by simp [playing.pending]⟩
    | false =>
      rw [he] at hleave
      exact .silent ⟨h.start, hleave, h.pending⟩
  | flush frame below playing choices plain =>
    have hst : r.stops = false := by simp [playing.stops, choices]
    rw [playing.heading?, if_pos (Frame.isDue_of_plain plain g.session), hst]
    exact present_minds (r := { r with frames := { frame with choices := [] } :: below })
      frame.choices h.start (h.top playing).top (h.opened_ne_nil playing)
  | execute frame below s rest playing here choices plain =>
    have hh : heading? g r = none := by simp [playing.heading?, choices, loneLink?]
    have hst : r.stops = isStop s := by simp [playing.stops, choices, here]
    rw [hh, hst]
    exact execute_minds (r := { r with frames := { frame with rest := rest } :: below }) s h.start
      playing.pending (h.top playing).top (h.opened_ne_nil playing)
  | fail frame below s rest choice condition e session playing here found holds =>
    obtain ⟨hst, hh⟩ := playing.choice (g := g) here found
    rw [holds] at hh
    rw [hh, hst]
    exact .failed e (ne_unresolvedChoice (Session.holds_error (by rw [holds]))) h.start
  | drop frame below s rest choice condition session playing here found holds =>
    obtain ⟨hst, hh⟩ := playing.choice (g := g) here found
    rw [holds] at hh
    rw [hh, hst]
    exact .silent ⟨h.start, (h.top playing).top, h.pending⟩
  | gather frame below s rest choice condition session playing here found holds accepts =>
    obtain ⟨hst, hh⟩ := playing.choice (g := g) here found
    rw [holds] at hh
    simp only [accepts, if_true] at hh
    rw [hh, hst]
    exact .silent ⟨h.start, (h.top playing).top, h.pending⟩
  | change frame below s rest choice condition session playing here found holds refuses =>
    obtain ⟨hst, hh⟩ := playing.choice (g := g) here found
    rw [holds] at hh
    simp only [refuses, Bool.false_eq_true, if_false] at hh
    rw [hh, hst]
    exact present_minds (g := { g with session := session })
      (r := { r with frames := { frame with rest := rest, choices := [choice] } :: below })
      frame.choices h.start (h.top playing).top (h.opened_ne_nil playing)

end

end Run

end Dialogue
