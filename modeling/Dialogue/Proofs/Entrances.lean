import Dialogue.Proofs.Visits
import Dialogue.Proofs.Writes

/-!
# Nodes that have been entered

A step sets out for a node where a run starts, where the selected choice has a
destination, and where a link stands alone (`Run.heading?`). If the node is loaded
and its body parses, the step enters it and the session notes it before the first
of its statements; if not, the step fails (`Run.step_heading`). Nothing else that a
step or a host does touches these notes. So behind every history of a host the nodes
noted are those that some run has entered, and the built-in function tells the same.
-/

namespace Dialogue

namespace Session

/-- The second session has these nodes noted besides those of the first, and the same functions
up to the calls that these have had. -/
structure Enters (s : Session) (titles : List String) (t : Session) : Prop where
  visited : ∀ title, t.hasVisited title = true ↔ s.hasVisited title = true ∨ title ∈ titles
  functions : ∀ name, t.isHost? name = s.isHost? name

variable {s t u : Session}

theorem Alike.enters (h : s.Alike t) : s.Enters [] t := by
  refine ⟨fun title => ?_, fun name => (h.functions name).symm⟩
  rw [hasVisited, hasVisited, h.visited]
  simp

theorem Enters.trans {titles later : List String} (h : s.Enters titles t)
    (h' : t.Enters later u) : s.Enters (titles ++ later) u := by
  refine ⟨fun title => ?_, fun name => (h'.functions name).trans (h.functions name)⟩
  rw [h'.visited, h.visited, List.mem_append, or_assoc]

theorem enters_markVisited (s : Session) (title : String) :
    s.Enters [title] (s.markVisited title) := by
  refine ⟨fun other => ?_, fun name => ?_⟩
  · unfold markVisited
    split
    · rename_i hv
      constructor
      · exact Or.inl
      · rintro (h | h)
        · exact h
        · rw [List.mem_singleton.1 h]
          exact hv
    · simp [hasVisited]
  · unfold markVisited
    split <;> rfl

theorem enters_assign (s : Session) (line : Nat) (target : String) (op : AssignOp)
    (value : Expr) : s.Enters [] (s.assign line target op value).2 := by
  have he := value.evaluate_alike s
  unfold assign
  split
  · rename_i hv
    rw [hv] at he
    exact he.enters
  · rename_i new s' hv
    rw [hv] at he
    have hread := (he.trans (s'.read_alike target)).enters
    simp only
    split
    · exact hread
    · exact ⟨hread.visited, hread.functions⟩

end Session

namespace Run

theorem enters_execute (g : Stage) (r : Run) (s : Statement) :
    g.session.Enters [] (execute g r s).2.1.session := by
  have hsame : g.session.Enters [] g.session := (Session.Alike.refl _).enters
  cases s with
  | command line content =>
    simp only [execute]
    split <;> exact hsame
  | assignment line target op value =>
    have ha := g.session.enters_assign line target op value
    simp only [execute]
    split <;> rename_i he <;> rw [he] at ha <;> exact ha
  | conditional line branches =>
    have hb := (chooseBranch_kept Session.kept_alike branches g.session).enters
    simp only [execute]
    split <;> rename_i he <;> rw [he] at hb <;> exact hb
  | text | link | option | shortcut => exact hsame

/-! ### Where a step goes -/

/-- The step enters the node that it sets out for, in a session that differs from that in front
of it by one condition at most; or it sets out for none, and notes none. -/
inductive Heads (g : Stage) : Option String → Outcome → Prop
  | toward (title : String) (session : Session) (r : Run) (alike : g.session.Alike session) :
      Heads g (some title) (enterNode { g with session := session } r title)
  | nowhere (outcome : Outcome) (enters : g.session.Enters [] outcome.2.1.session) :
      Heads g none outcome

theorem heads_stay {g : Stage} {session : Session} (h : g.session.Alike session)
    (progress : Progress) (g' : Stage) (r : Run) (hs : g'.session = session) :
    Heads g none (progress, g', r) := by
  refine .nowhere _ ?_
  simp only [hs]
  exact h.enters

theorem heads_follow (g : Stage) (r : Run) (choice : Choice) :
    Heads g choice.destination? (follow g r choice) := by
  have hsame := Session.Alike.refl g.session
  cases choice with
  | link line destination => exact .toward destination g.session r hsame
  | option line label destination => exact .toward destination g.session r hsame
  | shortcut line label body => exact heads_stay hsame .silent g _ rfl

theorem heads_present {g : Stage} {session : Session} (h : g.session.Alike session) (r : Run)
    (choices : List Choice) :
    Heads g (loneLink? choices) (present { g with session := session } r choices) := by
  unfold present
  split
  · exact heads_stay h .silent _ r rfl
  · rename_i line destination
    exact .toward destination session r h
  · rename_i hlone
    rw [loneLink?_eq_none hlone]
    exact heads_stay h _ _ _ rfl

theorem step_heading (g : Stage) (r : Run) : Heads g (heading? g r) (step g r) := by
  have hsame := Session.Alike.refl g.session
  have hm := step_move g r
  generalize step g r = outcome at hm ⊢
  cases hm with
  | enter title start =>
    have hh : heading? g r = some title := by simp [heading?, start]
    rw [hh]
    exact .toward title g.session _ hsame
  | wait p start pending selection =>
    have hh : heading? g r = none := by simp [heading?, start, pending, selection]
    rw [hh]
    exact heads_stay hsame _ g r rfl
  | stray p index start pending selection choice =>
    have hh : heading? g r = none := by simp [heading?, start, pending, selection, choice]
    rw [hh]
    exact heads_stay hsame _ g r rfl
  | resume p index choice start pending selection found =>
    have hh : heading? g r = choice.destination? := by
      simp [heading?, start, pending, selection, found]
    rw [hh]
    exact heads_follow g _ choice
  | finish start pending frames =>
    have hh : heading? g r = none := by simp [heading?, start, pending, frames]
    rw [hh]
    exact heads_stay hsame _ g r rfl
  | leave frame below playing rest choices =>
    have hh : heading? g r = none := by simp [playing.heading?, choices, loneLink?]
    rw [hh]
    exact heads_stay hsame _ g _ rfl
  | flush frame below playing choices plain =>
    rw [playing.heading?, if_pos (Frame.isDue_of_plain plain g.session)]
    exact heads_present hsame _ frame.choices
  | execute frame below s rest playing here choices plain =>
    have hh : heading? g r = none := by simp [playing.heading?, choices, loneLink?]
    rw [hh]
    exact .nowhere _ (enters_execute g _ s)
  | fail frame below s rest choice condition e session playing here found holds =>
    obtain ⟨-, hh⟩ := playing.choice (g := g) here found
    have ha := g.session.holds_alike condition
    rw [holds] at hh ha
    rw [hh]
    exact heads_stay ha _ _ _ rfl
  | drop frame below s rest choice condition session playing here found holds =>
    obtain ⟨-, hh⟩ := playing.choice (g := g) here found
    have ha := g.session.holds_alike condition
    rw [holds] at hh ha
    rw [hh]
    exact heads_stay ha _ _ _ rfl
  | gather frame below s rest choice condition session playing here found holds accepts =>
    obtain ⟨-, hh⟩ := playing.choice (g := g) here found
    have ha := g.session.holds_alike condition
    rw [holds] at hh ha
    simp only [accepts, if_true] at hh
    rw [hh]
    exact heads_stay ha _ _ _ rfl
  | change frame below s rest choice condition session playing here found holds refuses =>
    obtain ⟨-, hh⟩ := playing.choice (g := g) here found
    have ha := g.session.holds_alike condition
    rw [holds] at hh ha
    simp only [refuses, Bool.false_eq_true, if_false] at hh
    rw [hh]
    exact heads_present ha _ frame.choices

theorem enterNode_eq {g : Stage} (hc : g.library.Coherent) (r : Run) (title : String) :
    ∃ library, enterNode g r title = match Library.parsedBody g.library.nodes title with
      | .ok body =>
        (.silent, { g with library := library, session := g.session.markVisited title },
          { r with frames := { node := title, rest := body, endsNode := true } :: r.frames })
      | .error e => (.failed e, { g with library := library }, r) := by
  have hs := (hc.statements title).1
  unfold enterNode
  split <;> rename_i library he <;> rw [he] at hs <;> rw [← hs] <;> exact ⟨library, rfl⟩

/-- The node that a step enters: one it sets out for, which is loaded and has a body that
parses. -/
def enters? (g : Stage) (r : Run) : Option String :=
  (heading? g r).filter fun title => (Library.parsedBody g.library.nodes title).isOk

/-- A step notes the node that it enters, and no other. -/
theorem step_enters {g : Stage} (hc : g.library.Coherent) (r : Run) :
    g.session.Enters (enters? g r).toList (step g r).2.1.session := by
  have hh := step_heading g r
  unfold enters?
  generalize step g r = outcome at hh
  generalize heading? g r = heading at hh
  cases hh with
  | nowhere _ enters => exact enters
  | toward title session r' alike =>
    have hc' : ({ g with session := session } : Stage).library.Coherent := hc
    obtain ⟨library, he⟩ := enterNode_eq hc' r' title
    rw [he]
    cases hb : Library.parsedBody g.library.nodes title with
    | ok body =>
      rw [Option.filter_some_pos (by rw [hb]; rfl)]
      exact alike.enters.trans (session.enters_markVisited title)
    | error e =>
      rw [Option.filter_some_neg (by simp [hb, Except.isOk, Except.toBool])]
      exact alike.enters

/-- A step that sets out for a node stands in front of the first statement of its body, with the
node noted; or it fails, and nothing is noted. -/
theorem step_of_heading {g : Stage} (hc : g.library.Coherent) {r : Run} {title : String}
    (h : heading? g r = some title) :
    (∀ body, Library.parsedBody g.library.nodes title = .ok body →
      (step g r).1 = .silent ∧ (step g r).2.1.session.hasVisited title = true ∧
      (step g r).2.2.frames.head? = some { node := title, rest := body, endsNode := true }) ∧
    ∀ e, Library.parsedBody g.library.nodes title = .error e →
      (step g r).1 = .failed e ∧
      ∀ other, (step g r).2.1.session.hasVisited other = g.session.hasVisited other := by
  have hentered := step_enters hc r
  have hh := step_heading g r
  unfold enters? at hentered
  rw [h] at hh hentered
  refine ⟨fun body hb => ?_, fun e hb => ?_⟩
  · rw [Option.filter_some_pos (by rw [hb]; rfl)] at hentered
    have hvisited := (hentered.visited title).2 (Or.inr (List.mem_singleton_self title))
    generalize step g r = outcome at hh hvisited
    cases hh with
    | toward _ session r' alike =>
      obtain ⟨library, he⟩ := enterNode_eq (g := { g with session := session }) hc r' title
      simp only [hb] at he
      rw [he] at hvisited ⊢
      exact ⟨rfl, hvisited, rfl⟩
  · rw [Option.filter_some_neg (by simp [hb, Except.isOk, Except.toBool])] at hentered
    refine ⟨?_, fun other => ?_⟩
    · generalize step g r = outcome at hh
      cases hh with
      | toward _ session r' alike =>
        obtain ⟨library, he⟩ := enterNode_eq (g := { g with session := session }) hc r' title
        simp only [hb] at he
        rw [he]
    · have hsame := hentered.visited other
      simp only [Option.toList_none, List.not_mem_nil, or_false] at hsame
      exact Bool.eq_iff_iff.2 hsame

def entered : (limit : Nat) → Stage → Run → List String
  | 0, _, _ => []
  | limit + 1, g, r =>
    (enters? g r).toList ++
      match step g r with
      | (.silent, g, r) => entered limit g r
      | _ => []

theorem advance_enters {g : Stage} (hc : g.library.Coherent) (r : Run) (limit : Nat) :
    g.session.Enters (entered limit g r) (advance limit g r).2.1.session := by
  induction limit generalizing g r with
  | zero => exact (Session.Alike.refl _).enters
  | succ limit ih =>
    have hs := step_enters hc r
    have hcoherent := (step_keeps g r).coherent hc
    rw [advance, entered]
    generalize step g r = outcome at hs hcoherent
    obtain ⟨progress, g', r'⟩ := outcome
    cases progress with
    | silent => exact hs.trans (ih hcoherent r')
    | cue | ended | waiting | failed => simpa using hs

theorem next_enters {g : Stage} (hc : g.library.Coherent) (r : Run) (limit : Nat) :
    g.session.Enters (if r.done then [] else entered limit g r) (next limit g r).2.1.session := by
  cases hd : r.done with
  | true =>
    rw [next_of_done hd]
    exact (Session.Alike.refl _).enters
  | false =>
    rw [next_of_not_done hd, report_stage]
    exact advance_enters hc r limit

end Run

/-! ### Whole histories -/

namespace Host

/-- The nodes that an action has the run enter. -/
def entered (h : Host) : Action → List String
  | .next limit =>
    match h.run with
    | none => []
    | some run => if run.done then [] else run.entered limit h.stage
  | _ => []

def entries (h : Host) : List Action → List String
  | [] => []
  | a :: history => h.entered a ++ (h.act a).entries history

/-- All but asking a run to go on leaves alone which nodes are noted, and every function but the
one it registers. -/
theorem act_elsewhere (h : Host) (a : Action) (hn : ∀ limit, a ≠ .next limit) :
    (h.act a).stage.session.visited = h.stage.session.visited ∧
      ∀ name, (∀ function, a ≠ .register name function) →
        (h.act a).stage.session.isHost? name = h.stage.session.isHost? name := by
  cases a with
  | next limit => exact absurd rfl (hn limit)
  | register other function =>
    refine ⟨rfl, fun name hname => ?_⟩
    have hne : name ≠ other := by
      rintro rfl
      exact hname function rfl
    exact congrArg (Option.map Function.isHost) (Table.get?_insert_of_ne _ other name _ hne)
  | load | setStorage | readVariable | begin | dropRun => exact ⟨rfl, fun _ _ => rfl⟩
  | setVariable name value =>
    simp only [act, setVariable]
    cases h.visibleStore <;> exact ⟨rfl, fun _ _ => rfl⟩
  | select offer index =>
    simp only [act, select, Stage.select]
    cases h.stage.offers[h.offerNumber offer]? with
    | none => exact ⟨rfl, fun _ _ => rfl⟩
    | some o =>
      simp only [Option.map_some]
      cases o.select index <;> exact ⟨rfl, fun _ _ => rfl⟩

theorem act_enters {h : Host} (hc : h.stage.library.Coherent) (a : Action) :
    (∀ title, (h.act a).hasVisited title = true ↔
      h.hasVisited title = true ∨ title ∈ h.entered a) ∧
    ∀ name, (∀ function, a ≠ .register name function) →
      (h.act a).stage.session.isHost? name = h.stage.session.isHost? name := by
  have helse := h.act_elsewhere a
  cases a with
  | next limit =>
    simp only [act, entered]
    cases hrun : h.run with
    | none => exact ⟨fun title => by simp, fun _ _ => rfl⟩
    | some run =>
      have hnext := Run.next_enters hc run limit
      exact ⟨hnext.visited, fun name _ => hnext.functions name⟩
  | load | register | setStorage | setVariable | readVariable | begin | dropRun | select =>
    obtain ⟨hvisited, hfunctions⟩ := helse (by simp)
    refine ⟨fun title => ?_, hfunctions⟩
    rw [hasVisited, hasVisited, Session.hasVisited, Session.hasVisited, hvisited]
    simp [entered]

theorem foldl_act_enters {h : Host} (hc : h.stage.library.Coherent) (history : List Action)
    (title : String) : (history.foldl act h).hasVisited title = true ↔
      h.hasVisited title = true ∨ title ∈ h.entries history := by
  induction history generalizing h with
  | nil => simp [entries]
  | cons a history ih =>
    rw [List.foldl_cons, ih (act_coherent h a hc), (act_enters hc a).1, entries, List.mem_append,
      or_assoc]

theorem foldl_act_isHost? {h : Host} (hc : h.stage.library.Coherent) (history : List Action)
    (name : String) (hname : ∀ function, Action.register name function ∉ history) :
    (history.foldl act h).stage.session.isHost? name = h.stage.session.isHost? name := by
  induction history generalizing h with
  | nil => rfl
  | cons a history ih =>
    have hlater : ∀ function, Action.register name function ∉ history :=
      fun function hm => hname function (List.mem_cons_of_mem a hm)
    have hnow : ∀ function, a ≠ .register name function := by
      rintro function rfl
      exact hname function List.mem_cons_self
    rw [List.foldl_cons, ih (act_coherent h a hc) hlater, (act_enters hc a).2 name hnow]

end Host

/-- The built-in function tells which nodes are noted, as long as its name is not the host's. -/
theorem Expr.evaluate_visited {s s' : Session} {arg : Expr} {x : Value} {line : Nat}
    (h : s.isHost? visitedName = some false) (ha : arg.evaluate s = (.ok x, s')) :
    (Expr.call line visitedName [arg]).evaluate s =
      (.ok (.bool (s.hasVisited x.display)), s') := by
  have halike := arg.evaluate_alike s
  rw [ha] at halike
  have hbuiltin : s'.functions.table.get? visitedName = some .visited := by
    rw [halike.functions] at h
    obtain ⟨function, hf, hk⟩ := Option.map_eq_some_iff.1 h
    cases function with
    | visited => exact hf
    | host => cases hk
  simp only [evaluate, evaluateAll, ha, Session.call, hbuiltin, Session.hasVisited,
    halike.visited]

namespace Host

/-- Behind every history: a node is noted exactly if some run has entered it; unless the host takes
its name for a function of its own, the built-in function says just that of the text of its
argument, wherever an expression is evaluated; what is noted stays noted whatever the host does
next; and a step that sets out for a node has it noted in front of the first statement of its body,
or fails and notes nothing. -/
theorem visited_iff_entered (history : List Action) :
    let h := after history
    (∀ title, h.hasVisited title = true ↔ title ∈ entries {} history) ∧
    ((∀ function, Action.register visitedName function ∉ history) →
      ∀ (s s' : Session) (arg : Expr) (x : Value) (line : Nat), h.stage.session.Alike s →
        arg.evaluate s = (.ok x, s') → (Expr.call line visitedName [arg]).evaluate s =
          (.ok (.bool (decide (x.display ∈ entries {} history))), s')) ∧
    (∀ more title, h.hasVisited title = true → (after (history ++ more)).hasVisited title = true) ∧
    ∀ (run : Run) (title : String), Run.heading? h.stage run = some title →
      (∀ body, Library.parsedBody h.stage.library.nodes title = .ok body →
        (run.step h.stage).1 = .silent ∧
        (run.step h.stage).2.1.session.hasVisited title = true ∧
        (run.step h.stage).2.2.frames.head? =
          some { node := title, rest := body, endsNode := true }) ∧
      ∀ e, Library.parsedBody h.stage.library.nodes title = .error e →
        (run.step h.stage).1 = .failed e ∧
        ∀ other, (run.step h.stage).2.1.session.hasVisited other = h.hasVisited other := by
  intro h
  have hc : h.stage.library.Coherent := after_coherent history
  have hvisited : ∀ title, h.hasVisited title = true ↔ title ∈ entries {} history := by
    intro title
    have hnone : ¬({} : Host).hasVisited title = true := Bool.false_ne_true
    exact (foldl_act_enters Library.coherent_empty history title).trans (or_iff_right hnone)
  refine ⟨hvisited, fun hname s s' arg x line halike ha => ?_, fun more title hv => ?_,
    fun run title hh => Run.step_of_heading hc hh⟩
  · have hbuiltin : h.stage.session.isHost? visitedName = some false :=
      foldl_act_isHost? Library.coherent_empty history visitedName hname
    rw [halike.functions] at hbuiltin
    have hsame : s.hasVisited x.display = decide (x.display ∈ entries {} history) := by
      rw [Session.hasVisited, ← halike.visited]
      exact Bool.eq_iff_iff.2 ((hvisited x.display).trans decide_eq_true_iff.symm)
    rw [Expr.evaluate_visited hbuiltin ha, hsame]
  · rw [after, List.foldl_append]
    exact (foldl_act_enters hc more title).2 (Or.inl hv)

/-- A walk from the gate to the square, and on to a ruin that is not on the map. -/
def stroll : List Action :=
  [.load [⟨"Gate", "[[Square]]", ""⟩,
      ⟨"Square", "<<if visited(\"Square\")>>\nPigeons\n<<endif>>\n[[Ruin]]", ""⟩],
    .begin "Gate", .next 9, .next 9]

theorem stroll_entries :
    entries {} stroll = ["Gate", "Square"] ∧
    Library.parsedBody (after stroll).stage.library.nodes "Gate" = .ok [.link 1 "Square"] ∧
    Library.parsedBody (after stroll).stage.library.nodes "Ruin" =
      .error (.nodeNotFound "Ruin") := by
  refine ⟨by cbv, by cbv, by cbv⟩

/-- The square is noted and the ruin is not, neither for the host nor for expressions; a new walk
begins in front of the first statement of the gate, and one to the ruin fails. -/
theorem visited_iff_entered_stroll :
    ((after stroll).hasVisited "Square" = true ∧ ¬(after stroll).hasVisited "Ruin" = true) ∧
    (Expr.call 1 visitedName [.literal 1 (.string "Square")]).evaluate
        (after stroll).stage.session = (.ok (.bool true), (after stroll).stage.session) ∧
    (after (stroll ++ [.load [⟨"Square", "", ""⟩]])).hasVisited "Square" = true ∧
    ((Run.from "Gate").step (after stroll).stage).2.2.frames.head? =
      some { node := "Gate", rest := [.link 1 "Square"], endsNode := true } ∧
    ((Run.from "Ruin").step (after stroll).stage).1 = .failed (.nodeNotFound "Ruin") := by
  obtain ⟨hentries, hgate, hruin⟩ := stroll_entries
  obtain ⟨hvisited, hbuiltin, hstays, hstep⟩ := visited_iff_entered stroll
  have hsquare : (after stroll).hasVisited "Square" = true := by
    rw [hvisited, hentries]
    decide
  refine ⟨⟨hsquare, ?_⟩, ?_, hstays _ _ hsquare, ((hstep _ "Gate" rfl).1 _ hgate).2.2,
    ((hstep _ "Ruin" rfl).2 _ hruin).1⟩
  · rw [hvisited, hentries]
    decide
  · rw [hbuiltin (by simp [stroll]) _ _ _ (.string "Square") 1 (Session.Alike.refl _) rfl, hentries]
    rfl

end Host

end Dialogue
