import Dialogue.Proofs.Performance

/-!
# A run tells what the recursion tells

A run keeps on a stack of frames what a narration keeps in its recursion: each
frame stands for a part that is being told, with its accumulator. Every part of a
narration is matched by steps of the run that start and end with the same frames
below (`statements_match`), so a run before a host shows what the narration shows,
event by event and with the same session behind each (`run_refines_narration`).
-/

namespace Dialogue

namespace Performance
open Narration (Part andThen Approximates)

/-- So many steps lead from one place of a performance to another. -/
inductive Reaches : Nat → Performance → Performance → Prop
  | refl (p : Performance) : Reaches 0 p p
  | step {k : Nat} {p q r : Performance} (first : p.step = (.onward, q)) (rest : Reaches k q r) :
      Reaches (k + 1) p r

theorem Reaches.trans {k m : Nat} {p q r : Performance} (hp : Reaches k p q)
    (hq : Reaches m q r) : Reaches (k + m) p r := by
  induction hp with
  | refl => simpa using hq
  | step first _ ih =>
    rw [Nat.add_right_comm]
    exact .step first (ih hq)

theorem Reaches.stepwise {k : Nat} {p q : Performance} (h : Reaches k p q) (n : Nat) :
    Performance.stepwise (k + n) p = Performance.stepwise n q := by
  induction h with
  | refl => simp
  | step first _ ih =>
    rw [Nat.add_right_comm, Performance.stepwise, first]
    exact ih

theorem stepwise_one (p q : Performance) (ending : Ending) (h : p.step = (ending, q))
    (ho : ending ≠ .onward) : stepwise 1 p = (ending, q.scene) := by
  rw [stepwise, h]
  cases ending with
  | onward => exact absurd rfl ho
  | concluded | failed | waiting | cut => rfl

/-- Steps from `p` on match a part. If the part is through, they have led, by at least `least`
steps, to where `ready` holds; if it has been cut off, they have been so many that twice their
number makes up `bound`; otherwise they come to the same end. -/
def Matches (least bound : Nat) (p : Performance) (part : Part) (ready : Performance → Prop) :
    Prop :=
  match part.1 with
  | .onward => ∃ k q, Reaches k p q ∧ least ≤ k ∧ q.scene = part.2 ∧ ready q
  | .cut => ∃ k q, Reaches k p q ∧ bound ≤ 2 * k ∧ q.seen = part.2.seen
  | _ => ∃ k, stepwise k p = part

theorem matches_onward (bound : Nat) {p : Performance} {ready : Performance → Prop}
    (h : ready p) : Matches 0 bound p (.onward, p.scene) ready :=
  ⟨0, p, .refl p, Nat.le_refl 0, rfl, h⟩

theorem matches_cut {least : Nat} {p : Performance} {scene : Scene} {ready : Performance → Prop}
    (h : scene.seen = p.seen) : Matches least 0 p (.cut, scene) ready :=
  ⟨0, p, .refl p, Nat.zero_le _, h.symm⟩

theorem matches_ending {least bound k : Nat} {p : Performance} {part : Part}
    {ready : Performance → Prop} (h : stepwise k p = part) (ho : part.1 ≠ .onward)
    (hc : part.1 ≠ .cut) : Matches least bound p part ready := by
  obtain ⟨ending, scene⟩ := part
  cases ending with
  | onward => exact absurd rfl ho
  | cut => exact absurd rfl hc
  | concluded | failed | waiting => exact ⟨k, h⟩

theorem Matches.weaken {least bound least' bound' : Nat} {p : Performance} {part : Part}
    {ready : Performance → Prop} (h : Matches least bound p part ready) (hl : least' ≤ least)
    (hb : bound' ≤ bound) : Matches least' bound' p part ready := by
  obtain ⟨ending, scene⟩ := part
  cases ending with
  | onward =>
    obtain ⟨k, q, hr, hk, hs⟩ := h
    exact ⟨k, q, hr, by omega, hs⟩
  | cut =>
    obtain ⟨k, q, hr, hk, hs⟩ := h
    exact ⟨k, q, hr, by omega, hs⟩
  | concluded | failed | waiting => exact h

theorem Matches.of_step {least bound : Nat} {p q : Performance} {part : Part}
    {ready : Performance → Prop} (h : Matches least bound q part ready)
    (hs : p.step = (.onward, q)) : Matches (least + 1) (bound + 2) p part ready := by
  obtain ⟨ending, scene⟩ := part
  cases ending with
  | onward =>
    obtain ⟨k, r, hr, hk, hq⟩ := h
    exact ⟨k + 1, r, .step hs hr, by omega, hq⟩
  | cut =>
    obtain ⟨k, r, hr, hk, hq⟩ := h
    exact ⟨k + 1, r, .step hs hr, by omega, hq⟩
  | concluded | failed | waiting =>
    obtain ⟨k, he⟩ := h
    exact ⟨k + 1, by rw [stepwise, hs]; exact he⟩

theorem Matches.andThen {least least' bound bound' : Nat} {p : Performance} {part : Part}
    {following : Scene → Part} {ready ready' : Performance → Prop}
    (h : Matches least bound p part ready)
    (hf : ∀ q, ready q → Matches least' bound' q (following q.scene) ready')
    (hb : bound ≤ 2 * least + bound') :
    Matches (least + least') bound p (Narration.andThen part following) ready' := by
  obtain ⟨ending, scene⟩ := part
  cases ending with
  | cut => exact h
  | concluded | failed | waiting => exact h
  | onward =>
    obtain ⟨k, q, hr, hk, hs, hq⟩ := h
    have hm := hf q hq
    simp only at hs
    subst hs
    simp only [Narration.andThen]
    generalize following q.scene = part' at hm
    obtain ⟨ending', scene'⟩ := part'
    cases ending' with
    | onward =>
      obtain ⟨m, r, hm, hle, hrest⟩ := hm
      exact ⟨k + m, r, hr.trans hm, by omega, hrest⟩
    | cut =>
      obtain ⟨m, r, hm, hle, hrest⟩ := hm
      exact ⟨k + m, r, hr.trans hm, by omega, hrest⟩
    | concluded | failed | waiting =>
      obtain ⟨m, he⟩ := hm
      exact ⟨k + m, by rw [hr.stepwise m]; exact he⟩

theorem andThen_onward (part : Part) :
    (Narration.andThen part fun scene => (.onward, scene)) = part := by
  obtain ⟨ending, scene⟩ := part
  cases ending <;> rfl

theorem Matches.followed {least bound : Nat} {p : Performance} {part : Part}
    {ready ready' : Performance → Prop} (h : Matches least bound p part ready)
    (hf : ∀ q, ready q → Matches 0 bound q (.onward, q.scene) ready') :
    Matches least bound p part ready' := by
  have hall : Matches (least + 0) bound p
      (Narration.andThen part fun scene => (.onward, scene)) ready' :=
    Matches.andThen h hf (by omega)
  rw [andThen_onward] at hall
  exact hall

/-! ### Places in a performance -/

/-- The run is about to take a statement or to leave a frame. -/
structure Ready (nodes : Table Node) (frames : List Frame) (p : Performance) : Prop where
  start : p.run.start = none
  pending : p.run.pending = none
  frames : p.run.frames = frames
  nodes : p.stage.library.nodes = nodes
  coherent : p.stage.library.Coherent

variable {nodes : Table Node}

theorem Ready.moved {frames frames' : List Frame} {p : Performance} (h : Ready nodes frames p)
    (session : Session) :
    Ready nodes frames'
      (p.moved { p.stage with session := session } { p.run with frames := frames' }) :=
  ⟨h.start, h.pending, rfl, h.nodes, h.coherent⟩

theorem Ready.step_leave {frame : Frame} {below : List Frame} {p : Performance}
    (h : Ready nodes (frame :: below) p) (hr : frame.rest = []) :
    Run.step p.stage p.run = Run.leave p.stage p.run frame below := by
  simp [Run.step, h.start, h.pending, h.frames, hr]

theorem Ready.step_take {frame : Frame} {below : List Frame} {p : Performance} {s : Statement}
    {rest : List Statement} (h : Ready nodes (frame :: below) p) (hr : frame.rest = s :: rest) :
    Run.step p.stage p.run = Run.take p.stage p.run frame below s rest := by
  simp [Run.step, h.start, h.pending, h.frames, hr]

theorem Ready.leave_block (bound : Nat) {title : String} {frames : List Frame} {p : Performance}
    (h : Ready nodes (⟨title, [], [], false⟩ :: frames) p) :
    Matches 1 bound p (.onward, p.scene) (Ready nodes frames) := by
  have hs : p.step = (.onward, p.moved p.stage { p.run with frames := frames }) := by
    simp [step, h.step_leave rfl, Run.leave]
  have hm := (matches_onward bound (h.moved p.stage.session)).of_step hs
  exact hm.weaken (by omega) (by omega)

theorem Ready.leave_node (bound : Nat) {title : String} {frames : List Frame} {p : Performance}
    (h : Ready nodes (⟨title, [], [], true⟩ :: frames) p) :
    Matches 1 bound p (.onward, p.scene.reveal (.complete title)) (Ready nodes frames) := by
  have hs : p.step = (.onward, { p.moved p.stage { p.run with frames := frames } with
      seen := p.seen ++ [(.complete title, p.stage.session)] }) := by
    simp [step, h.step_leave rfl, Run.leave, hear, Cue.event, Performance.moved]
  have hq : Ready nodes frames { p.moved p.stage { p.run with frames := frames } with
      seen := p.seen ++ [(.complete title, p.stage.session)] } :=
    ⟨h.start, h.pending, rfl, h.nodes, h.coherent⟩
  have hm := (matches_onward bound hq).of_step hs
  exact hm.weaken (by omega) (by omega)

def Uniform (choices : List Choice) : Prop :=
  ∀ c ∈ choices, ∀ d ∈ choices, c.isShortcut = d.isShortcut

theorem uniform_nil : Uniform [] := by
  intro c hc
  cases hc

theorem uniform_singleton (choice : Choice) : Uniform [choice] := by
  intro c hc d hd
  rw [List.mem_singleton.1 hc, List.mem_singleton.1 hd]

theorem accepts_eq_all (frame : Frame) (choice : Choice) (h : Uniform frame.choices) :
    frame.accepts choice = frame.choices.all fun c => c.isShortcut == choice.isShortcut := by
  unfold Frame.accepts
  cases hl : frame.choices.getLast? with
  | none =>
    rw [List.getLast?_eq_none_iff.1 hl]
    rfl
  | some last =>
    have hm : last ∈ frame.choices := List.mem_of_getLast? hl
    rw [Bool.eq_iff_iff, List.all_eq_true]
    constructor
    · intro he c hc
      rw [h c hc last hm]
      exact he
    · intro ha
      exact ha last hm

theorem uniform_append {choices : List Choice} {choice : Choice}
    (ha : (choices.all fun c => c.isShortcut == choice.isShortcut) = true) :
    Uniform (choices ++ [choice]) := by
  have hk : ∀ c ∈ choices ++ [choice], c.isShortcut = choice.isShortcut := by
    intro c hc
    rcases List.mem_append.1 hc with hc | hc
    · exact beq_iff_eq.1 (List.all_eq_true.1 ha c hc)
    · rw [List.mem_singleton.1 hc]
  intro c hc d hd
  rw [hk c hc, hk d hd]

/-! ### The induction hypotheses -/

/-- With this much fuel, entering a node matches telling it. -/
def NodesMatch (nodes : Table Node) (fuel : Nat) : Prop :=
  ∀ (title : String) (frames : List Frame) (p : Performance) (stage : Stage) (run : Run),
    Run.step p.stage p.run = Run.enterNode stage run title →
    Ready nodes frames (p.moved stage run) →
    Matches 1 fuel p (Narration.node nodes fuel title (p.moved stage run).scene)
      (Ready nodes frames)

/-- With this much fuel, playing the statements of a frame matches telling them. -/
def StatementsMatch (nodes : Table Node) (fuel : Nat) : Prop :=
  ∀ (title : String) (choices : List Choice) (body : List Statement) (endsNode : Bool)
    (below : List Frame) (p : Performance), Uniform choices →
    Ready nodes (⟨title, body, choices, endsNode⟩ :: below) p →
    Matches 0 (fuel - 1) p (Narration.statements nodes fuel title choices body p.scene)
      (Ready nodes (⟨title, [], [], endsNode⟩ :: below))

theorem nodesMatch_zero : NodesMatch nodes 0 := by
  intro title frames p stage run _ _
  exact matches_cut rfl

theorem nodesMatch_succ {fuel : Nat} (hs : StatementsMatch nodes fuel) :
    NodesMatch nodes (fuel + 1) := by
  intro title frames p stage run he h
  obtain ⟨hb, hn, hc⟩ := h.coherent.statements title
  have hnodes : stage.library.nodes = nodes := h.nodes
  simp only [moved] at hb hn hc
  rw [hnodes] at hb hn
  obtain ⟨result, library, hl⟩ : ∃ result library,
      stage.library.statements title = (result, library) := ⟨_, _, rfl⟩
  rw [hl] at hb hn hc
  simp only at hb hn hc
  rw [Narration.node, ← hb]
  cases result with
  | error e =>
    refine matches_ending (k := 1) (stepwise_one p (p.moved { stage with library := library } run)
      (.failed e) ?_ (by simp)) (by simp) (by simp)
    simp [step, he, Run.enterNode, hl]
  | ok body =>
    have hstep : p.step = (.onward,
        p.moved
          { stage with library := library, session := stage.session.markVisited title }
          { run with frames := ⟨title, body, [], true⟩ :: run.frames }) := by
      simp [step, he, Run.enterNode, hl]
    have hready : Ready nodes (⟨title, body, [], true⟩ :: frames)
        (p.moved
          { stage with library := library, session := stage.session.markVisited title }
          { run with frames := ⟨title, body, [], true⟩ :: run.frames }) :=
      ⟨h.start, h.pending, by rw [← h.frames]; rfl, hn, hc⟩
    have hbody := hs title [] body true frames _ uniform_nil hready
    have hleave : ∀ q, Ready nodes (⟨title, [], [], true⟩ :: frames) q →
        Matches 1 (fuel + 1) q (.onward, q.scene.reveal (.complete title)) (Ready nodes frames) :=
      fun q hq => hq.leave_node (fuel + 1)
    refine Matches.weaken (Matches.andThen (hbody.of_step hstep) hleave ?_) ?_ ?_ <;> omega

theorem block_match {fuel : Nat} (hs : StatementsMatch nodes fuel) {title : String}
    {frame : Frame} {below : List Frame} {p : Performance} (hn : frame.node = title)
    (h : Ready nodes (frame :: below) p) (body : List Statement) :
    Matches 0 (fuel - 1) (p.moved p.stage (p.run.enterBlock body))
      (Narration.statements nodes fuel title [] body p.scene) (Ready nodes (frame :: below)) := by
  cases body with
  | nil =>
    cases fuel with
    | zero => exact matches_cut rfl
    | succ fuel => exact matches_onward _ h
  | cons s rest =>
    have hc : p.run.currentNode = title := by
      simp [Run.currentNode, h.frames, hn]
    have hb : p.run.enterBlock (s :: rest) =
        { p.run with frames := ⟨title, s :: rest, [], false⟩ :: frame :: below } := by
      simp [Run.enterBlock, hc, h.frames]
    rw [hb]
    have hm := hs title [] (s :: rest) false (frame :: below) _ uniform_nil
      (h.moved p.stage.session)
    have hleave : ∀ q, Ready nodes (⟨title, [], [], false⟩ :: frame :: below) q →
        Matches 1 (fuel - 1) q (.onward, q.scene) (Ready nodes (frame :: below)) :=
      fun q hq => hq.leave_block (fuel - 1)
    exact hm.followed fun q hq => (hleave q hq).weaken (by omega) (by omega)

theorem eq_false_of_dropWhile_eq_cons {α : Type} (test : α → Bool) (l : List α) (x : α)
    (xs : List α) (h : l.dropWhile test = x :: xs) : test x = false := by
  induction l with
  | nil => cases h
  | cons y ys ih =>
    rw [List.dropWhile_cons] at h
    split at h
    · exact ih h
    · rename_i hy
      cases h
      simpa using hy

theorem selectFirst_eq (g : Stage) (number : Nat) (offer : Offer) (answers : List Nat)
    (ho : g.offers[number]? = some offer) (hs : offer.selection = none) :
    g.selectFirst number answers =
      match answers.dropWhile (offer.labels.length ≤ ·) with
      | [] => none
      | index :: rest =>
        some ({ g with offers := g.offers.set number { offer with selection := some index } },
          rest) := by
  induction answers with
  | nil => rfl
  | cons index answers ih =>
    by_cases hi : index < offer.labels.length
    · have hd : ¬offer.labels.length ≤ index := by omega
      simp [Stage.selectFirst, Stage.select, ho, Offer.select, hs, hi, hd]
    · have hd : offer.labels.length ≤ index := by omega
      simp [Stage.selectFirst, Stage.select, ho, Offer.select, hs, hi, hd, ih]

theorem present_of_not_lone (g : Stage) (r : Run) (choices : List Choice) (hne : choices ≠ [])
    (hl : ∀ line destination, choices ≠ [.link line destination]) :
    Run.present g r choices =
      (.cue (.options g.offers.length (.ofChoices choices)),
        { g with offers := g.offers ++ [.ofChoices choices] },
        { r with pending := some ⟨g.offers.length, choices⟩ }) := by
  unfold Run.present
  split
  · exact absurd rfl hne
  · rename_i line destination
    exact absurd rfl (hl line destination)
  · rfl

def answered (p : Performance) (stage : Stage) (run : Run) (choices : List Choice) (index : Nat)
    (answers : List Nat) : Performance where
  stage := { stage with
    offers := stage.offers ++ [{ Offer.ofChoices choices with selection := some index }] }
  run := { run with pending := some ⟨stage.offers.length, choices⟩ }
  answers := answers
  seen := p.seen ++
    [(.options (choices.map Choice.label) (choices.map Choice.line), stage.session)]

theorem step_present (p : Performance) (stage : Stage) (run : Run) (choices : List Choice)
    (he : Run.step p.stage p.run = Run.present stage run choices) (hne : choices ≠ [])
    (hl : ∀ line destination, choices ≠ [.link line destination]) :
    match p.answers.dropWhile (choices.length ≤ ·) with
    | [] => p.step.1 = .waiting ∧ p.step.2.scene =
        { (p.moved stage run).scene.reveal
            (.options (choices.map Choice.label) (choices.map Choice.line)) with answers := [] }
    | index :: rest => p.step = (.onward, p.answered stage run choices index rest) := by
  have hsel := selectFirst_eq { stage with offers := stage.offers ++ [.ofChoices choices] }
    stage.offers.length (.ofChoices choices) p.answers (by simp) rfl
  have hlen : (Offer.ofChoices choices).labels.length = choices.length := by
    simp [Offer.ofChoices]
  rw [hlen] at hsel
  rw [present_of_not_lone stage run choices hne hl] at he
  unfold step
  simp only [he, hear, moved, Cue.event, hsel]
  cases hd : p.answers.dropWhile (choices.length ≤ ·) with
  | nil => exact ⟨rfl, rfl⟩
  | cons index rest => simp [answered, Offer.ofChoices]

theorem step_answered (p : Performance) (stage : Stage) (run : Run) (choices : List Choice)
    (index : Nat) (answers : List Nat) (choice : Choice) (hs : run.start = none)
    (hc : choices[index]? = some choice) :
    Run.step (p.answered stage run choices index answers).stage
        (p.answered stage run choices index answers).run =
      Run.follow (p.answered stage run choices index answers).stage
        { run with pending := none } choice := by
  simp [Run.step, answered, hs, Run.resume, Stage.selection, hc]

theorem resolve_match {fuel : Nat} (hn : NodesMatch nodes fuel) (hs : StatementsMatch nodes fuel)
    {title : String} {frame : Frame} {below : List Frame} {p : Performance} {stage : Stage}
    {run : Run} {choices : List Choice} (ht : frame.node = title) (hne : choices ≠ [])
    (he : Run.step p.stage p.run = Run.present stage run choices)
    (h : Ready nodes (frame :: below) (p.moved stage run)) :
    Matches 1 fuel p
      (Narration.resolve (Narration.node nodes fuel) (Narration.statements nodes fuel title [])
        choices (p.moved stage run).scene)
      (Ready nodes (frame :: below)) := by
  unfold Narration.resolve
  split
  · exact absurd rfl hne
  · rename_i line destination
    exact hn destination (frame :: below) p stage run he h
  · rename_i hne' hl
    have hstep := step_present p stage run choices he hne hl
    have ha : (p.moved stage run).answers = p.answers := rfl
    simp only [Scene.answer?, Scene.reveal, scene, ha]
    cases hd : p.answers.dropWhile (choices.length ≤ ·) with
    | nil =>
      rw [hd] at hstep
      obtain ⟨hw, hscene⟩ := hstep
      have hone := stepwise_one p p.step.2 .waiting (by rw [← hw]) (by simp)
      rw [hscene] at hone
      exact matches_ending hone (by simp) (by simp)
    | cons index rest =>
      rw [hd] at hstep
      simp only at hstep
      have hi : index < choices.length := by
        simpa using eq_false_of_dropWhile_eq_cons _ _ _ _ hd
      -- The step behind the offer follows the selected choice.
      have hc : choices[index]? = some (choices.get ⟨index, hi⟩) := by simp [hi]
      have hready : Ready nodes (frame :: below)
          ((p.answered stage run choices index rest).moved
            (p.answered stage run choices index rest).stage { run with pending := none }) :=
        ⟨h.start, rfl, h.frames, h.nodes, h.coherent⟩
      have hfollow := step_answered p stage run choices index rest _ h.start hc
      generalize choices.get ⟨index, hi⟩ = choice at hc hfollow
      simp only [hc]
      cases choice with
      | link line destination =>
        have hm := hn destination (frame :: below) _ _ _ hfollow hready
        exact (hm.of_step hstep).weaken (by omega) (by omega)
      | option line label destination =>
        have hm := hn destination (frame :: below) _ _ _ hfollow hready
        exact (hm.of_step hstep).weaken (by omega) (by omega)
      | shortcut line label body =>
        have hsilent := step_of_silent (p.answered stage run choices index rest)
          _ _ hfollow
        have hm := block_match hs ht hready body
        have hall := (hm.of_step hsilent).of_step hstep
        exact hall.weaken (by omega) (by omega)

theorem branches_eq (block : List Statement → Scene → Part) (list : List Branch) (scene : Scene) :
    (∃ e session, Run.chooseBranch scene.session list = (.error e, session) ∧
      Narration.branches block list scene = (.failed e, scene.withSession session)) ∨
    ∃ body session, Run.chooseBranch scene.session list = (.ok body, session) ∧
      (Narration.branches block list scene = block body (scene.withSession session) ∨
        body = [] ∧
          Narration.branches block list scene = (.onward, scene.withSession session)) := by
  induction list generalizing scene with
  | nil => exact Or.inr ⟨[], scene.session, rfl, Or.inr ⟨rfl, rfl⟩⟩
  | cons branch rest ih =>
    unfold Run.chooseBranch Narration.branches
    obtain ⟨result, session, hh⟩ : ∃ result session,
        scene.session.holds branch.condition = (result, session) := ⟨_, _, rfl⟩
    rw [hh]
    cases result with
    | error e => exact Or.inl ⟨e, session, rfl, rfl⟩
    | ok holds =>
      cases holds with
      | true => exact Or.inr ⟨branch.body, session, rfl, Or.inl rfl⟩
      | false => exact ih (scene.withSession session)

def behind (p : Performance) (session : Session) (title : String) (rest : List Statement)
    (endsNode : Bool) (below : List Frame) : Performance :=
  p.moved { p.stage with session := session }
    { p.run with frames := ⟨title, rest, [], endsNode⟩ :: below }

section Plain

variable {fuel : Nat} {title : String} {endsNode : Bool} {below : List Frame} {p : Performance}
  {s : Statement} {rest : List Statement}

theorem Ready.step_execute (h : Ready nodes (⟨title, s :: rest, [], endsNode⟩ :: below) p)
    (hc : s.choice? = none) :
    Run.step p.stage p.run = Run.execute p.stage
      { p.run with frames := ⟨title, rest, [], endsNode⟩ :: below } s := by
  rw [h.step_take rfl]
  simp [Run.take, hc]

/-- A statement that is through in one step leaves the rest of its frame to be played. -/
theorem through_match (hs : StatementsMatch nodes fuel) {q : Performance}
    (hq : p.step = (.onward, q)) (hr : Ready nodes (⟨title, rest, [], endsNode⟩ :: below) q) :
    Matches 0 fuel p (Narration.statements nodes fuel title [] rest q.scene)
      (Ready nodes (⟨title, [], [], endsNode⟩ :: below)) := by
  have hm := hs title [] rest endsNode below q uniform_nil hr
  exact (hm.of_step hq).weaken (by omega) (by omega)

theorem cue_match (hs : StatementsMatch nodes fuel)
    (h : Ready nodes (⟨title, s :: rest, [], endsNode⟩ :: below) p) (event : Event)
    (hq : p.step = (.onward, { p.behind p.stage.session title rest endsNode below
      with seen := p.seen ++ [(event, p.stage.session)] })) :
    Matches 0 fuel p (Narration.statements nodes fuel title [] rest (p.scene.reveal event))
      (Ready nodes (⟨title, [], [], endsNode⟩ :: below)) :=
  through_match hs hq ⟨h.start, h.pending, rfl, h.nodes, h.coherent⟩

theorem stop_match (line : Nat)
    (h : Ready nodes (⟨title, .command line "stop" :: rest, [], endsNode⟩ :: below) p)
    (ready : Performance → Prop) : Matches 0 fuel p (.concluded, p.scene) ready := by
  have hfirst : p.step = (.onward, p.moved p.stage { p.run with frames := [] }) := by
    simp [step, h.step_execute rfl, Run.execute, Run.stopCommand]
  have hend : (p.moved p.stage { p.run with frames := [] }).step =
      (.concluded, p.moved p.stage { p.run with frames := [] }) := by
    simp [step, moved, Run.step, h.start, h.pending]
  refine matches_ending (k := 2) ?_ (by simp) (by simp)
  rw [stepwise, hfirst]
  have hlast := stepwise_one _ _ _ hend (by simp)
  exact hlast

theorem assignment_match (hs : StatementsMatch nodes fuel) {line : Nat} {target : String}
    {op : AssignOp} {value : Expr}
    (h : Ready nodes (⟨title, .assignment line target op value :: rest, [], endsNode⟩ :: below) p) :
    Matches 0 fuel p
      (andThen
        (Narration.plain title (Narration.statements nodes fuel title [])
          (.assignment line target op value) p.scene)
        (Narration.statements nodes fuel title [] rest))
      (Ready nodes (⟨title, [], [], endsNode⟩ :: below)) := by
  obtain ⟨result, session, ha⟩ : ∃ result session,
      p.stage.session.assign line target op value = (result, session) := ⟨_, _, rfl⟩
  have hscene : p.scene.session = p.stage.session := rfl
  simp only [Narration.plain, hscene, ha]
  cases result with
  | error e =>
    have hfail : p.step = (.failed e, p.behind session title rest endsNode below) := by
      simp [step, h.step_execute rfl, Run.execute, ha, behind]
    exact matches_ending (stepwise_one p _ _ hfail (by simp)) (by simp [andThen])
      (by simp [andThen])
  | ok u =>
    have hq : p.step = (.onward, p.behind session title rest endsNode below) := by
      simp [step, h.step_execute rfl, Run.execute, ha, behind]
    exact through_match hs hq (h.moved session)

theorem conditional_match (hs : StatementsMatch nodes fuel) {line : Nat} {list : List Branch}
    (h : Ready nodes (⟨title, .conditional line list :: rest, [], endsNode⟩ :: below) p) :
    Matches 0 fuel p
      (andThen (Narration.branches (Narration.statements nodes fuel title []) list p.scene)
        (Narration.statements nodes fuel title [] rest))
      (Ready nodes (⟨title, [], [], endsNode⟩ :: below)) := by
  have hscene : p.scene.session = p.stage.session := rfl
  rcases branches_eq (Narration.statements nodes fuel title []) list p.scene with
    ⟨e, session, hb, ht⟩ | ⟨body, session, hb, ht⟩
  · rw [hscene] at hb
    have hfail : p.step = (.failed e, p.behind session title rest endsNode below) := by
      simp [step, h.step_execute rfl, Run.execute, hb, behind]
    rw [ht]
    exact matches_ending (stepwise_one p _ _ hfail (by simp)) (by simp [andThen])
      (by simp [andThen])
  · rw [hscene] at hb
    have hready : Ready nodes (⟨title, rest, [], endsNode⟩ :: below)
        (p.behind session title rest endsNode below) := h.moved session
    have hq : p.step = (.onward, (p.behind session title rest endsNode below).moved
        (p.behind session title rest endsNode below).stage
        ((p.behind session title rest endsNode below).run.enterBlock body)) := by
      simp [step, h.step_execute rfl, Run.execute, hb, behind, moved]
    rcases ht with ht | ⟨he, ht⟩
    · rw [ht]
      have hbody := block_match hs rfl hready body
      have hall := Matches.andThen hbody
        (fun q hq => hs title [] rest endsNode below q uniform_nil hq) (by omega)
      exact (hall.of_step hq).weaken (by omega) (by omega)
    · rw [ht]
      subst he
      exact through_match hs hq hready

theorem plain_match (hs : StatementsMatch nodes fuel) (hc : s.choice? = none)
    (h : Ready nodes (⟨title, s :: rest, [], endsNode⟩ :: below) p) :
    Matches 0 fuel p
      (andThen (Narration.plain title (Narration.statements nodes fuel title []) s p.scene)
        (Narration.statements nodes fuel title [] rest))
      (Ready nodes (⟨title, [], [], endsNode⟩ :: below)) := by
  cases s with
  | text line content =>
    refine cue_match hs h (.text content title line) ?_
    simp [step, h.step_execute hc, Run.execute, Run.currentNode, hear, Cue.event, behind, moved]
  | command line content =>
    unfold Narration.plain
    by_cases hstop : content = "stop"
    · subst hstop
      exact stop_match line h _
    · simp only [if_neg hstop, andThen]
      refine cue_match hs h (.command content title line) ?_
      simp [step, h.step_execute hc, Run.execute, Run.stopCommand, hstop, Run.currentNode, hear,
        Cue.event, behind, moved]
  | assignment line target op value => exact assignment_match hs h
  | conditional line list => exact conditional_match hs h
  | link line destination => cases hc
  | option line label destination condition => cases hc
  | shortcut line label condition body => cases hc

end Plain

section Choices

variable {fuel : Nat} {title : String} {endsNode : Bool} {below : List Frame} {p : Performance}
  {choices : List Choice}

theorem nil_match (hn : NodesMatch nodes fuel) (hs : StatementsMatch nodes fuel)
    (h : Ready nodes (⟨title, [], choices, endsNode⟩ :: below) p) :
    Matches 0 fuel p
      (Narration.resolve (Narration.node nodes fuel) (Narration.statements nodes fuel title [])
        choices p.scene)
      (Ready nodes (⟨title, [], [], endsNode⟩ :: below)) := by
  by_cases he : choices = []
  · subst he
    exact matches_onward fuel h
  · have hp : Run.step p.stage p.run = Run.present p.stage
        { p.run with frames := ⟨title, [], [], endsNode⟩ :: below } choices := by
      rw [h.step_leave rfl]
      simp [Run.leave, he]
    have hm := resolve_match hn hs rfl he hp (h.moved p.stage.session)
    exact hm.weaken (by omega) (by omega)

/-- A choice is dropped, or it is kept until all choices next to it have come up. -/
theorem choice_match (hn : NodesMatch nodes fuel) (hs : StatementsMatch nodes fuel)
    (hu : Uniform choices) {s : Statement} {rest : List Statement} {choice : Choice}
    {condition : Option Expr} (hc : s.choice? = some (choice, condition))
    (h : Ready nodes (⟨title, s :: rest, choices, endsNode⟩ :: below) p) :
    Matches 0 fuel p (Narration.statements nodes (fuel + 1) title choices (s :: rest) p.scene)
      (Ready nodes (⟨title, [], [], endsNode⟩ :: below)) := by
  obtain ⟨result, session, hh⟩ : ∃ result session,
      p.stage.session.holds condition = (result, session) := ⟨_, _, rfl⟩
  have hscene : p.scene.session = p.stage.session := rfl
  have htake := h.step_take rfl
  simp only [Run.take, hc, hh] at htake
  simp only [Narration.statements, hc, hscene, hh]
  cases result with
  | error e =>
    have hfail : p.step = (.failed e, p.moved { p.stage with session := session }
        { p.run with frames := ⟨title, rest, choices, endsNode⟩ :: below }) := by
      simp [step, htake]
    exact matches_ending (stepwise_one p _ _ hfail (by simp)) (by simp) (by simp)
  | ok holds =>
    cases holds with
    | false =>
      have hq := step_of_silent p _ _ htake
      have hm := hs title choices rest endsNode below _ hu (h.moved session)
      exact (hm.of_step hq).weaken (by omega) (by omega)
    | true =>
      simp only [Run.gather] at htake
      rw [accepts_eq_all _ choice hu] at htake
      simp only at htake ⊢
      by_cases ha : (choices.all fun c => c.isShortcut == choice.isShortcut) = true
      · rw [if_pos ha] at htake ⊢
        have hq := step_of_silent p _ _ htake
        have hm := hs title (choices ++ [choice]) rest endsNode below _ (uniform_append ha)
          (h.moved session)
        exact (hm.of_step hq).weaken (by omega) (by omega)
      · rw [if_neg ha] at htake ⊢
        have hne : choices ≠ [] := by
          rintro rfl
          exact ha rfl
        -- The choice waits in the frame while those before it are resolved.
        have hm := resolve_match hn hs rfl hne htake (h.moved session)
        have hall := Matches.andThen hm
          (fun q hq => hs title [choice] rest endsNode below q (uniform_singleton choice) hq)
          (by omega)
        exact hall.weaken (by omega) (by omega)

end Choices

theorem statementsMatch_zero : StatementsMatch nodes 0 := by
  intro title choices body endsNode below p _ _
  exact matches_cut rfl

theorem statementsMatch_succ {fuel : Nat} (hn : NodesMatch nodes fuel)
    (hs : StatementsMatch nodes fuel) : StatementsMatch nodes (fuel + 1) := by
  intro title choices body endsNode below p hu h
  cases body with
  | nil => exact nil_match hn hs h
  | cons s rest =>
    cases hc : s.choice? with
    | some found =>
      obtain ⟨choice, condition⟩ := found
      exact choice_match hn hs hu hc h
    | none =>
      simp only [Narration.statements, hc]
      by_cases he : choices = []
      · subst he
        exact plain_match hs hc h
      · have hp : Run.step p.stage p.run = Run.present p.stage
            { p.run with frames := ⟨title, s :: rest, [], endsNode⟩ :: below } choices := by
          rw [h.step_take rfl]
          simp [Run.take, hc, he]
        have hm := resolve_match hn hs rfl he hp (h.moved p.stage.session)
        refine Matches.weaken (Matches.andThen hm (fun q hq => plain_match hs hc hq) ?_) ?_ ?_
          <;> omega

theorem statements_match (nodes : Table Node) (fuel : Nat) :
    NodesMatch nodes fuel ∧ StatementsMatch nodes fuel := by
  induction fuel with
  | zero => exact ⟨nodesMatch_zero, statementsMatch_zero⟩
  | succ fuel ih =>
    obtain ⟨hn, hs⟩ := ih
    exact ⟨nodesMatch_succ hs, statementsMatch_succ hn hs⟩

def opening (stage : Stage) (title : String) (answers : List Nat) : Performance where
  stage := stage
  run := Run.from title
  answers := answers

theorem opening_match (stage : Stage) (title : String) (answers : List Nat)
    (hc : stage.library.Coherent) (fuel : Nat) :
    Matches 1 fuel (opening stage title answers)
      (Narration.node stage.library.nodes fuel title (opening stage title answers).scene)
      (Ready stage.library.nodes []) :=
  (statements_match stage.library.nodes fuel).1 title [] (opening stage title answers) stage
    { Run.from title with start := none } rfl ⟨rfl, rfl, rfl, rfl, hc⟩

theorem Ready.step_concluded {nodes : Table Node} {p : Performance} (h : Ready nodes [] p) :
    p.step = (.concluded, p) := by
  simp [step, Run.step, h.start, h.pending, h.frames]
  rfl

theorem stepwise_settled {k m : Nat} {p : Performance} (h : (stepwise m p).1 ≠ .cut) :
    Approximates (stepwise k p) (stepwise m p) := by
  rcases Nat.le_total k m with hk | hm
  · obtain ⟨more, rfl⟩ := Nat.le.dest hk
    exact stepwise_mono k more p
  · obtain ⟨more, rfl⟩ := Nat.le.dest hm
    have ha := stepwise_mono m more p
    unfold Approximates at ha
    rw [if_neg h] at ha
    rw [← ha]
    exact approximates_refl _

theorem narrate_eq {nodes : Table Node} {least bound fuel : Nat} {title : String} {p : Performance}
    (h : Matches least bound p (Narration.node nodes fuel title p.scene) (Ready nodes [])) :
    (∃ k, (stepwise k p).1 ≠ .cut ∧ Narration.narrate nodes fuel title p.scene = stepwise k p) ∨
    ∃ k q, Reaches k p q ∧ bound ≤ 2 * k ∧
      ∃ scene, Narration.narrate nodes fuel title p.scene = (.cut, scene) ∧
        q.seen = scene.seen := by
  unfold Narration.narrate
  generalize Narration.node nodes fuel title p.scene = part at h
  obtain ⟨ending, scene⟩ := part
  cases ending with
  | onward =>
    obtain ⟨k, q, hr, _, hs, hq⟩ := h
    have hconcluded := hr.stepwise 1
    rw [stepwise_one q q .concluded hq.step_concluded (by simp)] at hconcluded
    refine Or.inl ⟨k + 1, ?_, ?_⟩
    · simp [hconcluded]
    · rw [hconcluded, hs]
      rfl
  | cut =>
    obtain ⟨k, q, hr, hk, hs⟩ := h
    exact Or.inr ⟨k, q, hr, hk, scene, rfl, hs⟩
  | concluded | failed | waiting =>
    obtain ⟨k, hk⟩ := h
    exact Or.inl ⟨k, by simp [hk], hk.symm⟩

theorem narrate_approximates_stepwise (stage : Stage) (title : String) (answers : List Nat)
    (hc : stage.library.Coherent) (fuel : Nat) :
    ∃ steps, Approximates
      (Narration.narrate stage.library.nodes fuel title (opening stage title answers).scene)
      (stepwise steps (opening stage title answers)) := by
  rcases narrate_eq (opening_match stage title answers hc fuel) with
    ⟨k, _, he⟩ | ⟨k, q, hr, _, scene, he, hs⟩
  · exact ⟨k, by rw [he]; exact approximates_refl _⟩
  · refine ⟨k, ?_⟩
    have hk : stepwise k (opening stage title answers) = (.cut, q.scene) := hr.stepwise 0
    rw [he, hk]
    refine approximates_of_seen scene _ ?_
    rw [← hs]
    exact List.prefix_rfl

theorem stepwise_approximates_narrate (stage : Stage) (title : String) (answers : List Nat)
    (hc : stage.library.Coherent) (steps : Nat) :
    Approximates (stepwise steps (opening stage title answers))
      (Narration.narrate stage.library.nodes (2 * steps) title
        (opening stage title answers).scene) := by
  rcases narrate_eq (opening_match stage title answers hc (2 * steps)) with
    ⟨k, hend, he⟩ | ⟨k, q, hr, hb, scene, he, hs⟩
  · rw [he]
    exact stepwise_settled hend
  · -- The narration has been cut off later than the steps.
    obtain ⟨more, hmore⟩ := Nat.le.dest (show steps ≤ k by omega)
    have hk : stepwise k (opening stage title answers) = (.cut, q.scene) := hr.stepwise 0
    have ha := stepwise_mono steps more (opening stage title answers)
    rw [hmore, hk] at ha
    rw [he]
    refine ha.trans (approximates_of_seen q.scene _ ?_)
    rw [← hs]
    exact List.prefix_rfl

end Performance

open Performance Narration

/-- Whatever a host has done before, a run from a node on shows what the recursion tells, for
every list of answers: the same events in the same order, each with the same session behind it,
and the same end. What the narration tells with some fuel is what calls show if they may take
enough steps, and what calls show is what the narration tells with enough fuel; what is cut off on
one side is the beginning of what the other side goes on with. -/
theorem run_refines_narration (history : List Host.Action) (title : String) (answers : List Nat) :
    let stage := (Host.after history).stage
    let p := opening stage title answers
    (∀ fuel, ∃ n, Approximates (narrate stage.library.nodes fuel title p.scene)
      (perform n n p)) ∧
    ∀ limit calls, ∃ fuel, Approximates (perform limit calls p)
      (narrate stage.library.nodes fuel title p.scene) := by
  intro stage p
  have hc : stage.library.Coherent := Host.after_coherent history
  constructor
  · intro fuel
    obtain ⟨n, hn⟩ := narrate_approximates_stepwise stage title answers hc fuel
    exact ⟨n, hn.trans (stepwise_approximates_perform n p rfl)⟩
  · intro limit calls
    obtain ⟨steps, hs⟩ := perform_approximates_stepwise limit calls p rfl
    exact ⟨2 * steps, hs.trans (stepwise_approximates_narrate stage title answers hc steps)⟩

end Dialogue
