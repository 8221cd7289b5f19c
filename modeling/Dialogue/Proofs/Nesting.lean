import Dialogue.Proofs.Visits

/-!
# Visits nest

What happens in a run is written down call by call (`Encounter.chronicle`). Visits
that are over lie one behind or one inside of the other (`Nested`). As long as a run
is under way, the visits that are open form a chain from the start node inwards
(`Unfinished`); completing the innermost one shortens the chain, and when the visit
of the start node is over, so is the run.
-/

namespace Dialogue

/-- Visits that are over, with what is told during them. -/
inductive Nested : List Happening → Prop
  | nil : Nested []
  | told (cue : Cue) (plain : ∀ title, cue ≠ .complete title) {rest : List Happening}
      (behind : Nested rest) : Nested (.told cue :: rest)
  | visit (title : String) {inner rest : List Happening} (inside : Nested inner)
      (behind : Nested rest) :
      Nested (.entered title :: (inner ++ .told (.complete title) :: rest))

theorem Nested.append {a b : List Happening} (ha : Nested a) (hb : Nested b) :
    Nested (a ++ b) := by
  induction ha with
  | nil => exact hb
  | told cue plain _ ih => exact .told cue plain ih
  | visit title inside _ _ ih =>
    rw [List.cons_append, List.append_assoc, List.cons_append]
    exact .visit title inside ih

theorem Nested.count {a : List Happening} (h : Nested a) (title : String) :
    a.count (.entered title) = a.count (.told (.complete title)) := by
  induction h with
  | nil => rfl
  | told cue plain _ ih =>
    have hc : Happening.told cue ≠ .told (.complete title) := fun he => plain title (by cases he; rfl)
    simp [hc, ih]
  | visit other inside behind ihi ihb =>
    simp only [List.count_cons, List.count_append, ihi, ihb, beq_iff_eq, Happening.entered.injEq,
      Happening.told.injEq, Cue.complete.injEq, reduceCtorEq, if_false]
    omega

theorem Nested.not_isClosing {a : List Happening} (h : Nested a) :
    ∀ x ∈ a, x.isClosing = false := by
  induction h with
  | nil => nofun
  | told cue plain _ ih =>
    intro x hx
    rcases List.mem_cons.1 hx with rfl | hx
    · rfl
    · exact ih x hx
  | visit title inside behind ihi ihb =>
    intro x hx
    simp only [List.mem_cons, List.mem_append] at hx
    rcases hx with rfl | hx | rfl | hx
    · rfl
    · exact ihi x hx
    · rfl
    · exact ihb x hx

/-- The visit of the start node, from its beginning to its end. -/
def Whole (start : String) (happenings : List Happening) : Prop :=
  ∃ inner, Nested inner ∧ happenings = .entered start :: (inner ++ [.told (.complete start)])

/-- Visits of which these are open, innermost first, the outermost being that of the start
node. -/
inductive Unfinished (start : String) : List String → List Happening → Prop
  | outermost {inner : List Happening} (inside : Nested inner) :
      Unfinished start [start] (.entered start :: inner)
  | deeper {opened : List String} {before inner : List Happening} (title : String)
      (around : Unfinished start opened before) (inside : Nested inner) :
      Unfinished start (title :: opened) (before ++ .entered title :: inner)

section

variable {start title : String} {opened : List String} {happenings : List Happening}

theorem Unfinished.ne_nil (h : Unfinished start opened happenings) : opened ≠ [] := by
  cases h <;> exact List.cons_ne_nil _ _

theorem Unfinished.append {more : List Happening} (h : Unfinished start opened happenings)
    (hm : Nested more) : Unfinished start opened (happenings ++ more) := by
  cases h with
  | outermost inside => exact .outermost (inside.append hm)
  | deeper title around inside =>
    rw [List.append_assoc, List.cons_append]
    exact .deeper title around (inside.append hm)

theorem Unfinished.not_isClosing (h : Unfinished start opened happenings) :
    ∀ x ∈ happenings, x.isClosing = false := by
  induction h with
  | outermost inside =>
    intro x hx
    rcases List.mem_cons.1 hx with rfl | hx
    · rfl
    · exact inside.not_isClosing x hx
  | deeper title around inside ih =>
    intro x hx
    simp only [List.mem_append, List.mem_cons] at hx
    rcases hx with hx | rfl | hx
    · exact ih x hx
    · rfl
    · exact inside.not_isClosing x hx

/-- The innermost visit comes to its end: it was that of the start node, or the visit around it is
the innermost one now. -/
theorem Unfinished.complete (h : Unfinished start (title :: opened) happenings) :
    (opened = [] ∧ Whole start (happenings ++ [.told (.complete title)])) ∨
      Unfinished start opened (happenings ++ [.told (.complete title)]) := by
  cases h with
  | outermost inside => exact Or.inl ⟨rfl, _, inside, rfl⟩
  | deeper title around inside =>
    rw [List.append_assoc, List.cons_append]
    exact Or.inr (around.append (.visit title inside .nil))

theorem Whole.not_isClosing (h : Whole start happenings) :
    ∀ x ∈ happenings, x.isClosing = false := by
  obtain ⟨inner, hn, rfl⟩ := h
  exact (Nested.visit start hn .nil).not_isClosing

end

theorem visits_concat (happenings : List Happening) (h : Happening) :
    visits (happenings ++ [h]) = h.visit (visits happenings) := by
  simp [visits, List.foldl_append]

/-- Everything that is told belongs to the visit that is innermost at the time. -/
def Attributed (happenings : List Happening) : Prop :=
  ∀ before h later, happenings = before ++ h :: later → h.Fits (visits before)

theorem attributed_nil : Attributed [] := fun before h later he => by simp at he

theorem Attributed.concat {happenings : List Happening} {h : Happening}
    (ha : Attributed happenings) (hf : h.Fits (visits happenings)) :
    Attributed (happenings ++ [h]) := by
  intro before x later he
  rcases List.eq_nil_or_concat later with rfl | ⟨later, last, rfl⟩
  · obtain ⟨rfl, hx⟩ := List.append_inj' he rfl
    cases hx
    exact hf
  · rw [List.concat_eq_append, ← List.cons_append, ← List.append_assoc] at he
    obtain ⟨rfl, -⟩ := List.append_inj' he rfl
    exact ha before x later rfl

/-! ### How far a run has come -/

namespace Run

/-- There is nothing left to do. -/
structure Rests (r : Run) : Prop where
  start : r.start = none
  pending : r.pending = none
  frames : r.frames = []

theorem Rests.step {r : Run} (h : r.Rests) (g : Stage) :
    Run.step g r = (.ended, g, r) ∧ happening? g r = none := by
  have hs : Run.step g r = (.ended, g, r) := by rw [Run.step, h.start, h.pending, h.frames]
  refine ⟨hs, ?_⟩
  rw [happening?, hs, heading?, stops, h.start, h.pending, h.frames]
  rfl

theorem Visiting.rests {r : Run} (h : Visiting [] r) : r.Rests :=
  ⟨h.start, by simpa using fun hp : ¬r.pending = none => h.pending hp, h.frames.eq_nil⟩

/-- How far a run has come with what has happened in it. -/
inductive Phase (start : String) : List Happening → Run → Prop
  | ahead {r : Run} (begins : r.start = some start) (frames : r.frames = [])
      (running : r.done = false) : Phase start [] r
  | under {happenings : List Happening} {opened : List String} {r : Run}
      (inside : Visiting opened r) (running : r.done = false)
      (unfinished : Unfinished start opened happenings) : Phase start happenings r
  | whole {happenings : List Happening} {r : Run} (rests : r.Rests)
      (complete : Whole start happenings) : Phase start happenings r
  /-- The run has been stopped or has failed, and that was the last thing to happen. -/
  | closed {before : List Happening} {last : Happening} {r : Run} (rests : r.Rests)
      (closing : last.isClosing = true) (others : ∀ x ∈ before, x.isClosing = false) :
      Phase start (before ++ [last]) r

theorem Phase.whole_of_done {start : String} {happenings : List Happening} {r : Run}
    (h : Phase start happenings r) (hd : r.done = true)
    (hnone : ∀ x ∈ happenings, x.isClosing = false) : Whole start happenings := by
  cases h with
  | ahead begins frames running =>
    rw [hd] at running
    cases running
  | under inside running unfinished =>
    rw [hd] at running
    cases running
  | whole rests complete => exact complete
  | closed rests closing others =>
    rw [hnone _ (by simp)] at closing
    cases closing

theorem Phase.rests_of_closing {start : String} {before later : List Happening} {h : Happening}
    {told : List Happening} {r : Run} (hphase : Phase start told r)
    (htold : told = before ++ h :: later) (hclosing : h.isClosing = true) :
    later = [] ∧ r.Rests := by
  have hmem : h ∈ told := by
    rw [htold]
    simp
  have hclash : ¬h.isClosing = false := by
    rw [hclosing]
    exact Bool.noConfusion
  cases hphase with
  | ahead begins frames running => cases hmem
  | under inside running unfinished => exact absurd (unfinished.not_isClosing h hmem) hclash
  | whole rests complete => exact absurd (complete.not_isClosing h hmem) hclash
  | @closed others last _ rests closing hothers =>
    refine ⟨?_, rests⟩
    rcases List.eq_nil_or_concat later with rfl | ⟨later, x, rfl⟩
    · rfl
    · rw [List.concat_eq_append, ← List.cons_append, ← List.append_assoc] at htold
      obtain ⟨rfl, -⟩ := List.append_inj' htold rfl
      exact absurd (hothers h (by simp)) hclash

/-- What has happened tells of a run how far it has come and which visits are open. -/
structure Recorded (start : String) (happenings : List Happening) (r : Run) : Prop where
  phase : Phase start happenings r
  titles : visits happenings = nodeTitles r.frames
  attributed : Attributed happenings

theorem recorded_from (title : String) : Recorded title [] (Run.from title) :=
  ⟨.ahead rfl rfl rfl, rfl, attributed_nil⟩

end Run

def Happening.item? : Happening → Option (Except RunError Cue)
  | .told cue => some (.ok cue)
  | .failed e => some (.error e)
  | _ => none

def Run.Answer.item? : Run.Answer → Option (Except RunError Cue)
  | .cue c => some (.ok c)
  | .failed e => if e = .unresolvedChoice then none else some (.error e)
  | _ => none

namespace Run

/-- A step, or a number of steps, goes on with what has happened, and hands out what happens in
it. -/
structure Continues (start : String) (earlier now : List Happening) (outcome : Outcome) :
    Prop where
  recorded : Recorded start (earlier ++ now) (report outcome).2.2
  items : now.filterMap Happening.item? = (report outcome).1.item?.toList

section

variable {start : String} {earlier : List Happening} {r : Run}

theorem Recorded.append_nil (h : Recorded start earlier r) : Recorded start (earlier ++ []) r := by
  rw [List.append_nil]
  exact h

/-- The first step enters the start node, or fails. -/
theorem Recorded.step_ahead (g : Stage) (hstart : r.start = some start) (hf : r.frames = [])
    (hd : r.done = false) : Continues start [] (happening? g r).toList (Run.step g r) := by
  have hstep : Run.step g r = enterNode g { r with start := none } start := by
    rw [Run.step, hstart]
  have hk := (step_keeps g r).done.trans hd
  unfold happening?
  rw [heading?, hstart]
  rw [hstep] at hk ⊢
  rcases enterNode_noted g { r with start := none } start r.stops with
    ⟨g', body, he, hn⟩ | ⟨g', e, he, hg, hn⟩
  · rw [he] at hk ⊢
    have hin : Stacked [start] ({ node := start, rest := body, endsNode := true } :: r.frames) := by
      rw [hf]
      exact stacked_nil.enter start body
    rw [hn]
    refine ⟨⟨.under ⟨rfl, hin, fun _ => List.cons_ne_nil _ _⟩ hk (.outermost .nil), ?_, ?_⟩, rfl⟩
    · exact hin.titles.symm
    · exact attributed_nil.concat trivial
  · rw [he, hn]
    refine ⟨⟨@Phase.closed start [] _ _ ⟨rfl, rfl, rfl⟩ rfl (by simp), rfl, ?_⟩, ?_⟩
    · exact attributed_nil.concat trivial
    · simp [Happening.item?, report, Answer.item?, hg]

/-- A step goes on with what has happened. -/
theorem Recorded.step (h : Recorded start earlier r) (hd : r.done = false) (g : Stage) :
    Continues start earlier (happening? g r).toList (Run.step g r) := by
  obtain ⟨hphase, hvisits, hattributed⟩ := h
  cases hphase with
  | ahead begins frames _ => exact Recorded.step_ahead g begins frames hd
  | whole rests complete =>
    obtain ⟨hs, hn⟩ := rests.step g
    rw [hs, hn]
    exact ⟨Recorded.append_nil ⟨.whole ⟨rests.start, rests.pending, rests.frames⟩ complete, hvisits,
      hattributed⟩, rfl⟩
  | closed rests closing others =>
    obtain ⟨hs, hn⟩ := rests.step g
    rw [hs, hn]
    exact ⟨Recorded.append_nil ⟨.closed ⟨rests.start, rests.pending, rests.frames⟩ closing others,
      hvisits, hattributed⟩, rfl⟩
  | @under _ opened _ inside _ unfinished =>
    have hopened : visits earlier = opened := hvisits.trans inside.frames.titles
    have hk := (step_keeps g r).done.trans hd
    have hm := inside.step g
    generalize happening? g r = noted at hm ⊢
    generalize Run.step g r = outcome at hm hk ⊢
    -- What a step notes decides how the chain of open visits goes on.
    cases hm with
    | silent inside' =>
      exact ⟨Recorded.append_nil ⟨.under inside' hk unfinished,
        hopened.trans inside'.frames.titles.symm, hattributed⟩, rfl⟩
    | waits inside' =>
      exact ⟨Recorded.append_nil ⟨.under inside' hk unfinished,
        hopened.trans inside'.frames.titles.symm, hattributed⟩, rfl⟩
    | ends outside => exact absurd outside unfinished.ne_nil
    | entered title inside' =>
      refine ⟨⟨.under inside' hk (.deeper title unfinished .nil), ?_, hattributed.concat trivial⟩,
        rfl⟩
      simp only [Option.toList_some]
      rw [visits_concat, hopened]
      exact inside'.frames.titles.symm
    | stopped outside =>
      refine ⟨⟨.closed outside.rests rfl unfinished.not_isClosing, ?_, hattributed.concat trivial⟩,
        rfl⟩
      simp only [Option.toList_some]
      rw [visits_concat]
      exact outside.frames.titles.symm
    | failed e genuine begins =>
      refine ⟨⟨.closed ⟨begins, rfl, rfl⟩ rfl unfinished.not_isClosing, ?_,
        hattributed.concat trivial⟩, ?_⟩
      · simp only [Option.toList_some]
        rw [visits_concat]
        rfl
      · simp [Happening.item?, report, Answer.item?, genuine]
    | told cue fits inside' =>
      rw [← hopened] at fits inside'
      refine ⟨⟨?_, ?_, hattributed.concat fits⟩, rfl⟩
      · simp only [Option.toList_some]
        rw [hopened] at fits inside'
        cases cue with
        | text content node line =>
          exact .under inside' hk (unfinished.append (.told _ (by simp) .nil))
        | command content node line =>
          exact .under inside' hk (unfinished.append (.told _ (by simp) .nil))
        | options number offer =>
          exact .under inside' hk (unfinished.append (.told _ (by simp) .nil))
        | complete title =>
          obtain ⟨rest, rfl⟩ := List.head?_eq_some_iff.1 fits
          rcases unfinished.complete with ⟨rfl, hwhole⟩ | hless
          · exact .whole inside'.rests hwhole
          · exact .under inside' hk hless
      · simp only [Option.toList_some]
        rw [visits_concat]
        exact inside'.frames.titles.symm

/-- The steps of a call go on with what has happened. -/
theorem Recorded.advance (h : Recorded start earlier r) (hd : r.done = false) (limit : Nat)
    (g : Stage) :
    Continues start earlier (happenings limit g r) (Run.advance limit g r) := by
  induction limit generalizing g r earlier with
  | zero => exact ⟨h.append_nil, rfl⟩
  | succ limit ih =>
    have hs := h.step hd g
    have hk := (step_keeps g r).done.trans hd
    obtain ⟨progress, g', r', he⟩ : ∃ progress g' r', Run.step g r = (progress, g', r') :=
      ⟨_, _, _, rfl⟩
    rw [he] at hs hk
    cases progress with
    | silent =>
      have hnone : (happening? g r).toList.filterMap Happening.item? = [] := hs.items
      have hrest := ih hs.recorded hk g'
      simp only [Run.advance, happenings, he]
      refine ⟨?_, ?_⟩
      · rw [← List.append_assoc]
        exact hrest.recorded
      · rw [List.filterMap_append, hnone]
        exact hrest.items
    | cue | ended | waiting | failed =>
      simp only [Run.advance, happenings, he, List.append_nil]
      exact hs

end

end Run

/-! ### Whole exchanges -/

def Reply.item? (reply : Reply) : Option (Except RunError Cue) :=
  match reply with
  | .answer a => a.item?
  | _ => none

namespace Encounter
open Run (Recorded recorded_from)

def happenings (e : Encounter) : Call → List Happening
  | .next limit => if e.run.done then [] else Run.happenings limit e.stage e.run
  | _ => []

def chronicle (e : Encounter) : List Call → List Happening
  | [] => []
  | c :: cs => e.happenings c ++ (e.call c).2.chronicle cs

theorem call_recorded {start : String} {earlier : List Happening} {e : Encounter}
    (h : Recorded start earlier e.run) (c : Call) :
    Recorded start (earlier ++ e.happenings c) (e.call c).2.run ∧
      (e.happenings c).filterMap Happening.item? = (e.call c).1.item?.toList := by
  cases c with
  | next limit =>
    rw [call_next]
    simp only [happenings]
    cases hd : e.run.done with
    | true =>
      rw [Run.next_of_done hd]
      exact ⟨h.append_nil, rfl⟩
    | false =>
      rw [Run.next_of_not_done hd]
      have hc := h.advance hd limit e.stage
      exact ⟨hc.recorded, hc.items⟩
  | select offer index =>
    rcases e.call_select offer index with ⟨o, _, _, _, hc⟩ | ⟨hn, hc⟩
    · rw [hc]
      exact ⟨h.append_nil, rfl⟩
    · rw [hc]
      refine ⟨h.append_nil, ?_⟩
      simp only [call]
      split <;> rfl
  | write name value => exact ⟨h.append_nil, rfl⟩

theorem after_recorded {start : String} {earlier : List Happening} {e : Encounter}
    (h : Recorded start earlier e.run) (calls : List Call) :
    Recorded start (earlier ++ e.chronicle calls) (e.after calls).run ∧
      (e.chronicle calls).filterMap Happening.item? =
        (e.transcript calls).filterMap fun entry => entry.2.item? := by
  induction calls generalizing e earlier with
  | nil => exact ⟨h.append_nil, rfl⟩
  | cons c calls ih =>
    obtain ⟨hcall, hitems⟩ := call_recorded h c
    obtain ⟨hrest, hitems'⟩ := ih hcall
    refine ⟨?_, ?_⟩
    · rw [chronicle, ← List.append_assoc]
      exact hrest
    · rw [chronicle, transcript, List.filterMap_append, hitems, hitems', List.filterMap_cons]
      cases (e.call c).1.item? <;> rfl

theorem done_of_finished {e : Encounter} {calls : List Call} {limit : Nat}
    (h : (.next limit, .answer .finished) ∈ e.transcript calls) :
    (e.after calls).run.done = true := by
  have hstays : ∀ (e : Encounter) (c : Call), e.run.done = true → (e.call c).2.run.done = true := by
    intro e c hd
    cases c with
    | next limit =>
      rw [call_next, Run.next_of_done hd]
      exact hd
    | select offer index =>
      rcases e.call_select offer index with ⟨o, _, _, _, hc⟩ | ⟨_, hc⟩ <;> (rw [hc]; exact hd)
    | write name value => exact hd
  induction calls generalizing e with
  | nil => cases h
  | cons c calls ih =>
    rw [transcript, List.mem_cons] at h
    rcases h with h | h
    · obtain ⟨rfl, hanswer⟩ := Prod.mk.inj h
      refine after_induction (P := fun e => e.run.done = true) hstays ?_ calls
      rw [call_next] at hanswer ⊢
      cases hd : e.run.done with
      | true =>
        rw [Run.next_of_done hd]
        exact hd
      | false =>
        rw [Run.next_of_not_done hd] at hanswer ⊢
        generalize Run.advance limit e.stage e.run = outcome at hanswer ⊢
        obtain ⟨progress, stage, run⟩ := outcome
        cases progress with
        | ended => rfl
        | cue | silent | waiting | failed => cases hanswer
    · exact ih h

theorem call_next_of_rests {e : Encounter} (h : e.run.Rests) (limit : Nat) :
    ((e.call (.next limit)).1 = .answer .finished ∨ limit = 0) ∧
      (e.call (.next limit)).2.stage = e.stage := by
  rw [call_next]
  cases hd : e.run.done with
  | true =>
    rw [Run.next_of_done hd]
    exact ⟨Or.inl rfl, rfl⟩
  | false =>
    rw [Run.next_of_not_done hd]
    cases limit with
    | zero => exact ⟨Or.inr rfl, rfl⟩
    | succ limit =>
      simp only [Run.advance, (h.step e.stage).1]
      exact ⟨Or.inl rfl, rfl⟩

/-- Whatever the host calls for: the frames that are bodies of nodes are the visits that are open,
in their order; lines, commands and the ends of nodes belong to the innermost of them; a run that
comes to its end without being stopped and without an error is the visit of its start node from
beginning to end, with all other visits nested in it; and once a run has been stopped or has failed,
nothing happens in it any more, and it leaves the session alone. -/
theorem visits_nest (stage : Stage) (title : String) (calls : List Call) :
    let first := opening stage title
    let e := first.after calls
    let told := first.chronicle calls
    Run.nodeTitles e.run.frames = visits told ∧
    told.filterMap Happening.item? =
      (first.transcript calls).filterMap (fun entry => entry.2.item?) ∧
    (∀ before h later, told = before ++ h :: later → h.Fits (visits before)) ∧
    (∀ limit, (.next limit, .answer .finished) ∈ first.transcript calls →
      (∀ h ∈ told, h.isClosing = false) →
      (∃ inner, Nested inner ∧
        told = .entered title :: (inner ++ [.told (.complete title)])) ∧
      ∀ node, told.count (.entered node) = told.count (.told (.complete node))) ∧
    ∀ before h later, told = before ++ h :: later → h.isClosing = true →
      later = [] ∧ ∀ limit, ((e.call (.next limit)).1 = .answer .finished ∨ limit = 0) ∧
        (e.call (.next limit)).2.stage = e.stage := by
  intro first e told
  obtain ⟨hrecorded, hitems⟩ := after_recorded (recorded_from title) (e := first) calls
  obtain ⟨hphase, htitles, hattributed⟩ : Recorded title told e.run := hrecorded
  refine ⟨htitles.symm, hitems, hattributed, fun limit hfinished hnone => ?_,
    fun before h later htold hclosing => ?_⟩
  · obtain ⟨inner, hinner, htold⟩ := hphase.whole_of_done (done_of_finished hfinished) hnone
    refine ⟨⟨inner, hinner, htold⟩, fun node => ?_⟩
    rw [htold]
    exact (Nested.visit title hinner .nil).count node
  · obtain ⟨hlast, hrests⟩ := hphase.rests_of_closing htold hclosing
    exact ⟨hlast, call_next_of_rests hrests⟩

/-- An inn on the way, where one can stay or leave. -/
def wayside : Stage := { library := ({} : Library).load [⟨"Road", "[[Inn]]\nDusk", ""⟩,
  ⟨"Inn", "-> Stay\n-> Leave\n\t<<stop>>", ""⟩] }

def lodging (index : Nat) : List Call :=
  [.next 9, .select 0 index, .next 9, .next 9, .next 9, .next 9]

theorem wayside_chronicles :
    (opening wayside "Road").chronicle (lodging 0) =
      [.entered "Road", .entered "Inn", .told (.options 0 ⟨["Stay", "Leave"], [1, 2], none⟩),
        .told (.complete "Inn"), .told (.text "Dusk" "Road" 2), .told (.complete "Road")] ∧
    (opening wayside "Road").chronicle (lodging 1) =
      [.entered "Road", .entered "Inn", .told (.options 0 ⟨["Stay", "Leave"], [1, 2], none⟩),
        .stopped] ∧
    ((opening wayside "Road").transcript (lodging 0)).getLast? =
      some (.next 9, .answer .finished) := by
  simp only [← Prod.mk.injEq]
  cbv

/-- Who stays completes every visit; who leaves hears no more of the road. -/
theorem visits_nest_wayside :
    (∃ inner, Nested inner ∧ (opening wayside "Road").chronicle (lodging 0) =
      .entered "Road" :: (inner ++ [.told (.complete "Road")])) ∧
    (((opening wayside "Road").after (lodging 1)).call (.next 9)).1 = .answer .finished := by
  obtain ⟨hstay, hleave, hlast⟩ := wayside_chronicles
  obtain ⟨-, -, -, hwhole, -⟩ := visits_nest wayside "Road" (lodging 0)
  obtain ⟨-, -, -, -, hclosed⟩ := visits_nest wayside "Road" (lodging 1)
  refine ⟨(hwhole 9 (List.mem_of_getLast? hlast) ?_).1, ?_⟩
  · rw [hstay]
    decide
  · obtain ⟨-, hfinished⟩ := hclosed [.entered "Road", .entered "Inn",
      .told (.options 0 ⟨["Stay", "Leave"], [1, 2], none⟩)] .stopped [] hleave rfl
    simpa using (hfinished 9).1

end Encounter

end Dialogue
