import Dialogue.Proofs.History
import Dialogue.Proofs.LineMaps

/-!
# Runs side by side

Two stages are twins if their sessions are the same and their offers and the bodies
of their nodes differ in lines only. What a piece of a step does to twins, on two
runs that differ in lines only, makes twins of them again, with the same cue or error
up to lines. The lines are compared through a function: under the identity this says
that nothing but the bodies of a library matters, and under a constant that lines do
not.
-/

namespace Dialogue
open Statement (blockMapLines branchesMapLines)
open Run (bodyMapLines)

variable {f : Nat → Nat}

/-- Two libraries whose bodies differ in lines only. -/
structure Library.Twins (f : Nat → Nat) (l l' : Library) : Prop where
  left : l.Coherent
  right : l'.Coherent
  bodies : ∀ title,
    bodyMapLines f (parsedBody l.nodes title) = bodyMapLines f (parsedBody l'.nodes title)

structure Stage.Twins (f : Nat → Nat) (g g' : Stage) : Prop where
  library : g.library.Twins f g'.library
  session : g.session = g'.session
  offers : g.offers.map (Offer.mapLines f) = g'.offers.map (Offer.mapLines f)

/-- A look-up gives the same up to lines, and leaves twins behind. -/
theorem Library.Twins.statements {l l' : Library} (h : l.Twins f l') (title : String) :
    bodyMapLines f (l.statements title).1 = bodyMapLines f (l'.statements title).1 ∧
      (l.statements title).2.Twins f (l'.statements title).2 := by
  obtain ⟨hbody, hnodes, hleft⟩ := h.left.statements title
  obtain ⟨hbody', hnodes', hright⟩ := h.right.statements title
  refine ⟨?_, hleft, hright, ?_⟩
  · rw [hbody, hbody']
    exact h.bodies title
  · rw [hnodes, hnodes']
    exact h.bodies

theorem Frame.mapLines_eq_iff {frame frame' : Frame} :
    frame.mapLines f = frame'.mapLines f ↔ frame.node = frame'.node ∧
      blockMapLines f frame.rest = blockMapLines f frame'.rest ∧
      frame.choices.map (Choice.mapLines f) = frame'.choices.map (Choice.mapLines f) ∧
      frame.endsNode = frame'.endsNode := by
  simp only [Frame.mapLines, Frame.mk.injEq]

theorem Run.mapLines_eq_iff {r r' : Run} :
    r.mapLines f = r'.mapLines f ↔ r.start = r'.start ∧
      r.frames.map (Frame.mapLines f) = r'.frames.map (Frame.mapLines f) ∧
      r.pending.map (Pending.mapLines f) = r'.pending.map (Pending.mapLines f) ∧
      r.done = r'.done := by
  simp only [Run.mapLines, Run.mk.injEq]

namespace Run

structure Twins (f : Nat → Nat) (o o' : Outcome) : Prop where
  progress : o.1.mapLines f = o'.1.mapLines f
  stage : o.2.1.Twins f o'.2.1
  run : o.2.2.mapLines f = o'.2.2.mapLines f

variable {g g' : Stage} {r r' : Run}

theorem enterNode_twins (hg : g.Twins f g') (hr : r.mapLines f = r'.mapLines f) (title : String) :
    Twins f (enterNode g r title) (enterNode g' r' title) := by
  obtain ⟨hbody, hlibrary⟩ := hg.library.statements title
  obtain ⟨hstart, hframes, hpending, hdone⟩ := mapLines_eq_iff.1 hr
  unfold enterNode
  generalize g.library.statements title = found at hbody hlibrary
  generalize g'.library.statements title = found' at hbody hlibrary
  obtain ⟨e | body, library⟩ := found <;> obtain ⟨e' | body', library'⟩ := found'
  · exact ⟨congrArg Progress.failed (Except.error.inj hbody), ⟨hlibrary, hg.session, hg.offers⟩, hr⟩
  · cases hbody
  · cases hbody
  · refine ⟨rfl, ⟨hlibrary, by rw [hg.session], hg.offers⟩, ?_⟩
    refine mapLines_eq_iff.2 ⟨hstart, ?_, hpending, hdone⟩
    simp only [List.map_cons, Frame.mapLines, hframes, Except.ok.inj hbody, List.map_nil]

theorem enterBlock_of_mapLines {body body' : List Statement} (hr : r.mapLines f = r'.mapLines f)
    (hb : blockMapLines f body = blockMapLines f body') :
    (r.enterBlock body).mapLines f = (r'.enterBlock body').mapLines f := by
  rw [enterBlock_mapLines, enterBlock_mapLines, hr, hb]

theorem follow_twins {choice choice' : Choice} (hg : g.Twins f g')
    (hr : r.mapLines f = r'.mapLines f) (hc : choice.mapLines f = choice'.mapLines f) :
    Twins f (follow g r choice) (follow g' r' choice') := by
  cases choice <;> cases choice' <;> simp only [Choice.mapLines, Choice.link.injEq,
    Choice.option.injEq, Choice.shortcut.injEq, reduceCtorEq] at hc
  · obtain ⟨-, rfl⟩ := hc
    exact enterNode_twins hg hr _
  · obtain ⟨-, -, rfl⟩ := hc
    exact enterNode_twins hg hr _
  · exact ⟨rfl, hg, enterBlock_of_mapLines hr hc.2.2⟩

theorem present_twins {choices choices' : List Choice} (hg : g.Twins f g')
    (hr : r.mapLines f = r'.mapLines f)
    (hc : choices.map (Choice.mapLines f) = choices'.map (Choice.mapLines f)) :
    Twins f (present g r choices) (present g' r' choices') := by
  have hlength : g.offers.length = g'.offers.length := by
    simpa using congrArg List.length hg.offers
  -- Everything but a lone link, and no choice at all, is offered.
  have hoffered : Twins f
      (.cue (.options g.offers.length (.ofChoices choices)),
        { g with offers := g.offers ++ [.ofChoices choices] },
        { r with pending := some ⟨g.offers.length, choices⟩ })
      (.cue (.options g'.offers.length (.ofChoices choices')),
        { g' with offers := g'.offers ++ [.ofChoices choices'] },
        { r' with pending := some ⟨g'.offers.length, choices'⟩ }) := by
    have hoffer : (Offer.ofChoices choices).mapLines f = (Offer.ofChoices choices').mapLines f := by
      rw [← Offer.ofChoices_mapLines, hc, Offer.ofChoices_mapLines]
    obtain ⟨hstart, hframes, -, hdone⟩ := mapLines_eq_iff.1 hr
    refine ⟨?_, ⟨hg.library, hg.session, ?_⟩, mapLines_eq_iff.2 ⟨hstart, hframes, ?_, hdone⟩⟩
    · simp only [Progress.mapLines, Cue.mapLines, hlength, hoffer]
    · simp only [List.map_append, hg.offers, List.map_cons, hoffer, List.map_nil]
    · simp only [Option.map_some, Pending.mapLines, hlength, hc]
  cases choices with
  | nil =>
    cases choices' with
    | nil => exact ⟨rfl, hg, hr⟩
    | cons => simp at hc
  | cons choice more =>
    cases choices' with
    | nil => simp at hc
    | cons choice' more' =>
      obtain ⟨hone, hmore⟩ := List.cons.inj hc
      cases more with
      | nil =>
        obtain rfl : more' = [] := by simpa using hmore.symm
        cases choice with
        | link line destination =>
          cases choice' with
          | link line' destination' => exact follow_twins hg hr hone
          | option | shortcut => cases hone
        | option | shortcut =>
          cases choice' with
          | link => cases hone
          | option | shortcut => exact hoffered
      | cons =>
        cases more' with
        | nil => simp at hmore
        | cons => cases choice <;> cases choice' <;> exact hoffered

theorem top_of_mapLines {frame frame' : Frame} {below below' : List Frame}
    {rest rest' : List Statement} {choices choices' : List Choice}
    (hr : r.mapLines f = r'.mapLines f) (hframe : frame.mapLines f = frame'.mapLines f)
    (hbelow : below.map (Frame.mapLines f) = below'.map (Frame.mapLines f))
    (hrest : blockMapLines f rest = blockMapLines f rest')
    (hc : choices.map (Choice.mapLines f) = choices'.map (Choice.mapLines f)) :
    Run.mapLines f { r with frames := { frame with rest := rest, choices := choices } :: below } =
      Run.mapLines f
        { r' with frames := { frame' with rest := rest', choices := choices' } :: below' } := by
  obtain ⟨hstart, -, hpending, hdone⟩ := mapLines_eq_iff.1 hr
  obtain ⟨hnode, -, -, hends⟩ := Frame.mapLines_eq_iff.1 hframe
  refine mapLines_eq_iff.2 ⟨hstart, ?_, hpending, hdone⟩
  rw [List.map_cons, List.map_cons, hbelow]
  exact congrArg (· :: _) (Frame.mapLines_eq_iff.2 ⟨hnode, hrest, hc, hends⟩)

section

variable {frame frame' : Frame} {below below' : List Frame}

theorem gather_twins {choice choice' : Choice} (hg : g.Twins f g')
    (hr : r.mapLines f = r'.mapLines f) (hframe : frame.mapLines f = frame'.mapLines f)
    (hbelow : below.map (Frame.mapLines f) = below'.map (Frame.mapLines f))
    (hc : choice.mapLines f = choice'.mapLines f) :
    Twins f (gather g r frame below choice) (gather g' r' frame' below' choice') := by
  have haccepts : frame.accepts choice = frame'.accepts choice' := by
    rw [← Frame.accepts_mapLines f, hframe, hc, Frame.accepts_mapLines]
  obtain ⟨-, hrest, hchoices, -⟩ := Frame.mapLines_eq_iff.1 hframe
  unfold gather
  rw [haccepts]
  split
  · refine ⟨rfl, hg, top_of_mapLines hr hframe hbelow hrest ?_⟩
    simp only [List.map_append, hchoices, List.map_cons, hc, List.map_nil]
  · refine present_twins hg (top_of_mapLines hr hframe hbelow hrest ?_) hchoices
    simp only [List.map_cons, hc, List.map_nil]

theorem execute_twins {s s' : Statement} (hg : g.Twins f g') (hr : r.mapLines f = r'.mapLines f)
    (hs : s.mapLines f = s'.mapLines f) : Twins f (execute g r s) (execute g' r' s') := by
  have hnode : r.currentNode = r'.currentNode := by
    rw [← currentNode_mapLines f r, hr, currentNode_mapLines f r']
  have hwith : ∀ session, Stage.Twins f { g with session := session }
      { g' with session := session } := fun session => ⟨hg.library, rfl, hg.offers⟩
  cases s <;> cases s' <;> simp only [Statement.mapLines, Statement.text.injEq,
    Statement.link.injEq, Statement.option.injEq, Statement.shortcut.injEq,
    Statement.conditional.injEq, Statement.assignment.injEq, Statement.command.injEq,
    reduceCtorEq] at hs
  case text.text =>
    obtain ⟨hline, rfl⟩ := hs
    refine ⟨?_, hg, hr⟩
    simp only [execute, Progress.mapLines, Cue.mapLines, hnode, hline]
  case link.link | option.option | shortcut.shortcut => exact ⟨rfl, hg, hr⟩
  case command.command line content line' content' =>
    obtain ⟨hline, rfl⟩ := hs
    obtain ⟨hstart, -, hpending, hdone⟩ := mapLines_eq_iff.1 hr
    simp only [execute]
    split
    · exact ⟨rfl, hg, mapLines_eq_iff.2 ⟨hstart, rfl, hpending, hdone⟩⟩
    · refine ⟨?_, hg, hr⟩
      simp only [Progress.mapLines, Cue.mapLines, hnode, hline]
  case assignment.assignment line target op value line' target' op' value' =>
    obtain ⟨hline, rfl, rfl, hvalue⟩ := hs
    have hassign : Session.failMapLines f (g.session.assign line target op value) =
        Session.failMapLines f (g'.session.assign line' target op value') := by
      rw [← Session.assign_mapLines, hline, hvalue, hg.session, Session.assign_mapLines]
    simp only [execute]
    rcases Session.failMapLines_eq f hassign with ⟨a, session, hx, hy⟩ | ⟨e, e', session, he, hx, hy⟩
    · rw [hx, hy]
      exact ⟨rfl, hwith session, hr⟩
    · rw [hx, hy]
      exact ⟨congrArg Progress.failed he, hwith session, hr⟩
  case conditional.conditional line branches line' branches' =>
    have hchosen : bodyMapLines f (chooseBranch g.session branches).1 =
        bodyMapLines f (chooseBranch g'.session branches').1 ∧
        (chooseBranch g.session branches).2 = (chooseBranch g'.session branches').2 := by
      rw [← Prod.mk.injEq, ← chooseBranch_mapLines, hs.2, hg.session, chooseBranch_mapLines]
    simp only [execute]
    generalize chooseBranch g.session branches = result at hchosen
    generalize chooseBranch g'.session branches' = result' at hchosen
    obtain ⟨hbody, hsession⟩ := hchosen
    obtain ⟨e | body, session⟩ := result <;> obtain ⟨e' | body', session'⟩ := result'
    · obtain rfl : session = session' := hsession
      exact ⟨congrArg Progress.failed (Except.error.inj hbody), hwith session, hr⟩
    · cases hbody
    · cases hbody
    · obtain rfl : session = session' := hsession
      exact ⟨rfl, hwith session, enterBlock_of_mapLines hr (Except.ok.inj hbody)⟩

theorem leave_twins (hg : g.Twins f g') (hr : r.mapLines f = r'.mapLines f)
    (hframe : frame.mapLines f = frame'.mapLines f)
    (hbelow : below.map (Frame.mapLines f) = below'.map (Frame.mapLines f)) :
    Twins f (leave g r frame below) (leave g' r' frame' below') := by
  obtain ⟨hstart, -, hpending, hdone⟩ := mapLines_eq_iff.1 hr
  obtain ⟨hnode, hrest, hchoices, hends⟩ := Frame.mapLines_eq_iff.1 hframe
  have hempty : frame.choices.isEmpty = frame'.choices.isEmpty := by
    simpa using congrArg List.isEmpty hchoices
  unfold leave
  rw [hempty]
  split
  · rw [hends, hnode]
    exact ⟨rfl, hg, mapLines_eq_iff.2 ⟨hstart, hbelow, hpending, hdone⟩⟩
  · exact present_twins hg (top_of_mapLines hr hframe hbelow hrest rfl) hchoices

theorem take_twins {s s' : Statement} {rest rest' : List Statement} (hg : g.Twins f g')
    (hr : r.mapLines f = r'.mapLines f) (hframe : frame.mapLines f = frame'.mapLines f)
    (hbelow : below.map (Frame.mapLines f) = below'.map (Frame.mapLines f))
    (hs : s.mapLines f = s'.mapLines f) (hrest : blockMapLines f rest = blockMapLines f rest') :
    Twins f (take g r frame below s rest) (take g' r' frame' below' s' rest') := by
  obtain ⟨hnode, hold, hchoices, hends⟩ := Frame.mapLines_eq_iff.1 hframe
  have hempty : frame.choices.isEmpty = frame'.choices.isEmpty := by
    simpa using congrArg List.isEmpty hchoices
  have htaken : Run.mapLines f { r with frames := { frame with rest := rest } :: below } =
      Run.mapLines f { r' with frames := { frame' with rest := rest' } :: below' } :=
    top_of_mapLines hr hframe hbelow hrest hchoices
  have hwith : ∀ session, Stage.Twins f { g with session := session }
      { g' with session := session } := fun session => ⟨hg.library, rfl, hg.offers⟩
  have hfound := congrArg Statement.choice? hs
  rw [Statement.choice?_mapLines, Statement.choice?_mapLines] at hfound
  unfold take
  cases hc : s.choice? with
  | none =>
    rw [hc] at hfound
    rw [Option.map_eq_none_iff.1 hfound.symm, hempty]
    simp only
    split
    · exact execute_twins hg htaken hs
    · exact present_twins hg (top_of_mapLines hr hframe hbelow hold rfl) hchoices
  | some found =>
    obtain ⟨choice, condition⟩ := found
    rw [hc, Option.map_some, eq_comm, Option.map_eq_some_iff] at hfound
    obtain ⟨⟨choice', condition'⟩, hc', hpair⟩ := hfound
    obtain ⟨hchoice, hcondition⟩ := Prod.mk.inj hpair
    have hholds : Session.failMapLines f (g.session.holds condition) =
        Session.failMapLines f (g'.session.holds condition') := by
      rw [← Session.holds_mapLines, ← hcondition, hg.session, Session.holds_mapLines]
    simp only [hc']
    rcases Session.failMapLines_eq f hholds with
      ⟨held, session, hx, hy⟩ | ⟨e, e', session, he, hx, hy⟩
    · rw [hx, hy]
      cases held with
      | false => exact ⟨rfl, hwith session, htaken⟩
      | true =>
        exact gather_twins (hwith session) hr
          (Frame.mapLines_eq_iff.2 ⟨hnode, hrest, hchoices, hends⟩) hbelow hchoice.symm
    · rw [hx, hy]
      exact ⟨congrArg Progress.failed he, hwith session, htaken⟩

end

theorem selection_of_twins (hg : g.Twins f g') (offer : Nat) :
    g.selection offer = g'.selection offer := by
  have hoffer := congrArg (·[offer]?) hg.offers
  simp only [List.getElem?_map] at hoffer
  have hselection : ∀ o : Option Offer,
      o.bind Offer.selection = (o.map (Offer.mapLines f)).bind Offer.selection := by
    rintro (_ | o) <;> rfl
  unfold Stage.selection
  rw [hselection, hoffer, ← hselection]

theorem resume_twins {p p' : Pending} (hg : g.Twins f g') (hr : r.mapLines f = r'.mapLines f)
    (hp : p.mapLines f = p'.mapLines f) : Twins f (resume g r p) (resume g' r' p') := by
  obtain ⟨hstart, hframes, -, hdone⟩ := mapLines_eq_iff.1 hr
  have hoffer : p.offer = p'.offer := (Pending.mk.inj hp).1
  have hchoices := (Pending.mk.inj hp).2
  have hlength : p.choices.length = p'.choices.length := by
    simpa using congrArg List.length hchoices
  unfold resume
  rw [hoffer, selection_of_twins hg, hlength]
  cases g'.selection p'.offer with
  | none => exact ⟨rfl, hg, hr⟩
  | some index =>
    have hindex := congrArg (·[index]?) hchoices
    simp only [List.getElem?_map] at hindex
    simp only
    cases hc : p'.choices[index]? with
    | none =>
      rw [hc] at hindex
      rw [Option.map_eq_none_iff.1 hindex]
      exact ⟨rfl, hg, hr⟩
    | some choice' =>
      rw [hc] at hindex
      obtain ⟨choice, hfound, hchoice⟩ := Option.map_eq_some_iff.1 hindex
      rw [hfound]
      exact follow_twins hg (mapLines_eq_iff.2 ⟨hstart, hframes, rfl, hdone⟩) hchoice

/-! ### Steps, calls and exchanges -/

/-- A step makes twins of twins. -/
theorem step_twins (hg : g.Twins f g') (hr : r.mapLines f = r'.mapLines f) :
    Twins f (step g r) (step g' r') := by
  obtain ⟨hstart, hframes, hpending, hdone⟩ := mapLines_eq_iff.1 hr
  unfold step
  rw [hstart]
  cases r'.start with
  | some title =>
    have hentering : Run.mapLines f { r with start := none } =
        Run.mapLines f { r' with start := none } :=
      mapLines_eq_iff.2 ⟨rfl, hframes, hpending, hdone⟩
    exact enterNode_twins hg hentering title
  | none =>
    cases hp : r.pending with
    | some p =>
      rw [hp, Option.map_some, eq_comm, Option.map_eq_some_iff] at hpending
      obtain ⟨p', hp', hlines⟩ := hpending
      rw [hp']
      exact resume_twins hg hr hlines.symm
    | none =>
      rw [hp] at hpending
      rw [Option.map_eq_none_iff.1 hpending.symm]
      cases hf : r.frames with
      | nil =>
        rw [hf] at hframes
        rw [List.map_eq_nil_iff.1 hframes.symm]
        exact ⟨rfl, hg, hr⟩
      | cons frame below =>
        rw [hf, List.map_cons, eq_comm, List.map_eq_cons_iff] at hframes
        obtain ⟨frame', below', hf', hframe, hbelow⟩ := hframes
        rw [hf']
        have hrest := (Frame.mapLines_eq_iff.1 hframe).2.1
        rw [Statement.blockMapLines_eq_map, Statement.blockMapLines_eq_map] at hrest
        simp only
        cases hs : frame.rest with
        | nil =>
          rw [hs, List.map_nil, List.map_eq_nil_iff] at hrest
          rw [hrest]
          exact leave_twins hg hr hframe.symm hbelow.symm
        | cons s rest =>
          rw [hs, List.map_cons, List.map_eq_cons_iff] at hrest
          obtain ⟨s', rest', hs', hstatement, hblock⟩ := hrest
          rw [hs']
          refine take_twins hg hr hframe.symm hbelow.symm hstatement.symm ?_
          rw [Statement.blockMapLines_eq_map, Statement.blockMapLines_eq_map, hblock]

theorem advance_twins (hg : g.Twins f g') (hr : r.mapLines f = r'.mapLines f) (limit : Nat) :
    Twins f (advance limit g r) (advance limit g' r') := by
  induction limit generalizing g g' r r' with
  | zero => exact ⟨rfl, hg, hr⟩
  | succ limit ih =>
    have hs := step_twins hg hr
    unfold advance
    generalize step g r = o at hs
    generalize step g' r' = o' at hs
    obtain ⟨progress, stage, run⟩ := o
    obtain ⟨progress', stage', run'⟩ := o'
    obtain ⟨hprogress, hstage, hrun⟩ := hs
    cases progress with
    | silent =>
      cases progress' with
      | silent => exact ih hstage hrun
      | cue | ended | waiting | failed => cases hprogress
    | cue | ended | waiting | failed =>
      cases progress' with
      | silent => cases hprogress
      | cue | ended | waiting | failed => exact ⟨hprogress, hstage, hrun⟩

theorem report_twins {o o' : Outcome} (h : Twins f o o') :
    (report o).1.mapLines f = (report o').1.mapLines f ∧
      (report o).2.1.Twins f (report o').2.1 ∧
      (report o).2.2.mapLines f = (report o').2.2.mapLines f := by
  obtain ⟨progress, g, r⟩ := o
  obtain ⟨progress', g', r'⟩ := o'
  obtain ⟨hprogress, hg, hr⟩ := h
  obtain ⟨hstart, hframes, hpending, -⟩ := mapLines_eq_iff.1 hr
  cases progress <;> cases progress' <;> simp only [Progress.mapLines, Progress.cue.injEq,
    Progress.failed.injEq, reduceCtorEq] at hprogress
  case silent.silent | waiting.waiting => exact ⟨rfl, hg, hr⟩
  case cue.cue => exact ⟨congrArg Answer.cue hprogress, hg, hr⟩
  case ended.ended => exact ⟨rfl, hg, mapLines_eq_iff.2 ⟨hstart, hframes, hpending, rfl⟩⟩
  case failed.failed =>
    exact ⟨congrArg Answer.failed hprogress, hg, mapLines_eq_iff.2 ⟨hstart, rfl, rfl, rfl⟩⟩

/-- Asked to go on, two runs that differ in lines only give the same answer up to lines. -/
theorem next_twins (hg : g.Twins f g') (hr : r.mapLines f = r'.mapLines f) (limit : Nat) :
    (next limit g r).1.mapLines f = (next limit g' r').1.mapLines f ∧
      (next limit g r).2.1.Twins f (next limit g' r').2.1 ∧
      (next limit g r).2.2.mapLines f = (next limit g' r').2.2.mapLines f := by
  obtain ⟨-, -, -, hdone⟩ := mapLines_eq_iff.1 hr
  cases hd : r.done with
  | true =>
    rw [next_of_done hd, next_of_done (hdone.symm.trans hd)]
    exact ⟨rfl, hg, hr⟩
  | false =>
    rw [next_of_not_done hd, next_of_not_done (hdone.symm.trans hd)]
    exact report_twins (advance_twins hg hr limit)

end Run

theorem Stage.Twins.refl {g : Stage} (h : g.library.Coherent) : g.Twins f g :=
  ⟨⟨h, h, fun _ => rfl⟩, rfl, rfl⟩

namespace Encounter

structure Twins (f : Nat → Nat) (e e' : Encounter) : Prop where
  stage : e.stage.Twins f e'.stage
  run : e.run.mapLines f = e'.run.mapLines f

variable {e e' : Encounter}

theorem call_twins (h : Twins f e e') (c : Call) :
    (e.call c).1.mapLines f = (e'.call c).1.mapLines f ∧ Twins f (e.call c).2 (e'.call c).2 := by
  cases c with
  | next limit =>
    obtain ⟨hanswer, hstage, hrun⟩ := Run.next_twins h.stage h.run limit
    rw [call_next, call_next]
    exact ⟨congrArg Reply.answer hanswer, hstage, hrun⟩
  | write name value =>
    refine ⟨rfl, ⟨h.stage.library, ?_, h.stage.offers⟩, h.run⟩
    simp only [call, writing, h.stage.session]
  | select number index =>
    have hoffer := congrArg (·[number]?) h.stage.offers
    simp only [List.getElem?_map] at hoffer
    simp only [call, Stage.select]
    cases ho : e.stage.offers[number]? with
    | none =>
      rw [ho] at hoffer
      rw [Option.map_eq_none_iff.1 hoffer.symm]
      exact ⟨rfl, h⟩
    | some o =>
      rw [ho, Option.map_some, eq_comm, Option.map_eq_some_iff] at hoffer
      obtain ⟨o', ho', hlines⟩ := hoffer
      rw [ho']
      obtain ⟨labels, lines, selection⟩ := o
      obtain ⟨labels', lines', selection'⟩ := o'
      obtain ⟨rfl, hlines, rfl⟩ := Offer.mk.inj hlines
      simp only [Option.map_some, Offer.select]
      cases selection' with
      | some earlier => exact ⟨rfl, h⟩
      | none =>
        by_cases hindex : index < labels'.length
        · simp only [hindex, if_true]
          refine ⟨trivial, ⟨h.stage.library, h.stage.session, ?_⟩, h.run⟩
          rw [List.map_set, List.map_set, h.stage.offers]
          simp only [Offer.mapLines, hlines]
        · simp only [hindex, if_false]
          exact ⟨trivial, h⟩

/-- Twins tell the same up to lines, whatever they are asked for. -/
theorem after_twins (h : Twins f e e') (calls : List Call) :
    ((e.transcript calls).map fun entry => entry.2.mapLines f) =
        ((e'.transcript calls).map fun entry => entry.2.mapLines f) ∧
      Twins f (e.after calls) (e'.after calls) := by
  induction calls generalizing e e' with
  | nil => exact ⟨rfl, h⟩
  | cons c calls ih =>
    obtain ⟨hreply, hcall⟩ := call_twins h c
    obtain ⟨hrest, hafter⟩ := ih hcall
    refine ⟨?_, hafter⟩
    rw [transcript, transcript, List.map_cons, List.map_cons, hreply, hrest]

end Encounter

end Dialogue
