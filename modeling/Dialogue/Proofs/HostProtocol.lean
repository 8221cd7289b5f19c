import Dialogue.Proofs.OptionSets

/-!
# The protocol between a host and a run

The host may call in any order, select options of offers that are long past, select
twice or out of range, and ask for a cue before it has answered. None of this does
any harm. A call that comes to nothing could as well not have been made
(`Encounter.call_of_isFutile`). What a run does depends on the answers to the offer it
waits for, and not on those to any other (`Run.step_agree`).
-/

namespace Dialogue

/-- Whether a call has come to nothing: a selection that was refused, or a question ahead of the
answer to an offer. -/
def Reply.isFutile : Reply → Bool
  | .refused _ => true
  | .unknown => true
  | .answer (.failed .unresolvedChoice) => true
  | _ => false

def Reply.answer? : Reply → Option Run.Answer
  | .answer a => some a
  | _ => none

namespace Encounter
open Run (Orderly orderly_of_idle)

/-- What holds of an encounter between two calls, `n` being the number of offers at its
beginning. -/
structure Sound (n : Nat) (e : Encounter) : Prop where
  orderly : Orderly e.stage.offers e.run
  done : e.run.done = true → e.run.pending = none
  count : n ≤ e.stage.offers.length
  own : ∀ p, e.run.pending = some p → n ≤ p.offer

theorem sound_opening (stage : Stage) (title : String) :
    Sound stage.offers.length (opening stage title) :=
  ⟨orderly_of_idle rfl rfl, nofun, Nat.le_refl _, nofun⟩

theorem Sound.call {n : Nat} {e : Encounter} (h : Sound n e) (c : Call) : Sound n (e.call c).2 := by
  have ho := call_orderly e c h.orderly
  cases c with
  | next limit =>
    have ha := (h.orderly.next limit).2
    rw [call_next] at ho ⊢
    generalize e.run.next limit e.stage = result at ha ho ⊢
    cases ha with
    | presents choices g' r' presentable uniform running offers pending =>
      refine ⟨ho, fun hd => ?_, ?_, fun p hp => ?_⟩
      · have hd' : r'.done = true := hd
        rw [running] at hd'
        cases hd'
      · have hn := h.count
        simp only [offers, List.length_append, List.length_singleton]
        omega
      · have hp' : r'.pending = some p := hp
        rw [pending] at hp'
        cases hp'
        exact h.count
    | waits => exact h
    | rests => exact h
    | passes a g' r' offers pending told failed =>
      refine ⟨ho, fun _ => pending, ?_, fun p hp => ?_⟩
      · exact Nat.le_trans h.count (Nat.le_of_eq (by rw [offers]))
      · have hp' : r'.pending = some p := hp
        rw [pending] at hp'
        cases hp'
  | select offer index =>
    rcases e.call_select offer index with ⟨o, _, _, _, hc⟩ | ⟨_, hc⟩
    · rw [hc] at ho ⊢
      exact ⟨ho, h.done, by simpa using h.count, h.own⟩
    · rw [hc]
      exact h
  | write name value => exact ⟨ho, h.done, h.count, h.own⟩

theorem after_sound (stage : Stage) (title : String) (calls : List Call) :
    Sound stage.offers.length ((opening stage title).after calls) :=
  after_induction (fun _ c h => h.call c) (sound_opening stage title) calls

variable {n : Nat} {e : Encounter}

theorem call_of_isFutile (h : Sound n e) {c : Call} (hf : (e.call c).1.isFutile = true) :
    (e.call c).2 = e := by
  cases c with
  | next limit =>
    have ha := (h.orderly.next limit).2
    rw [call_next] at hf ⊢
    generalize e.run.next limit e.stage = result at ha hf ⊢
    cases ha with
    | presents => cases hf
    | waits => rfl
    | rests => rfl
    | passes a g' r' offers pending told failed =>
      simp only [Reply.isFutile] at hf
      split at hf
      · rename_i he
        cases he
      · rename_i he
        cases he
      · rename_i he
        cases he
        cases failed _ rfl
      · cases hf
  | select offer index =>
    rcases e.call_select offer index with ⟨o, _, _, _, hc⟩ | ⟨_, hc⟩
    · rw [hc] at hf
      cases hf
    · exact hc
  | write name value => cases hf

def effective (told : List (Call × Reply)) : List (Call × Reply) :=
  told.filter fun entry => !entry.2.isFutile

theorem replay_effective (h : Sound n e) (calls : List Call) :
    e.transcript ((effective (e.transcript calls)).map Prod.fst) = effective (e.transcript calls) ∧
      e.after ((effective (e.transcript calls)).map Prod.fst) = e.after calls := by
  induction calls generalizing e with
  | nil => exact ⟨rfl, rfl⟩
  | cons c calls ih =>
    obtain ⟨ht, ha⟩ := ih (h.call c)
    cases hf : (e.call c).1.isFutile with
    | true =>
      have hsame := call_of_isFutile h hf
      rw [hsame] at ht ha
      have hs : effective (e.transcript (c :: calls)) = effective (e.transcript calls) := by
        simp [effective, transcript, hf, hsame]
      rw [hs, after, hsame]
      exact ⟨ht, ha⟩
    | false =>
      have hs : effective (e.transcript (c :: calls)) =
          (c, (e.call c).1) :: effective ((e.call c).2.transcript calls) := by
        simp [effective, transcript, hf]
      rw [hs, List.map_cons, transcript, after, after]
      exact ⟨congrArg _ ht, ha⟩

/-! ### Selections -/

theorem selection_append_ofChoices (g g' : Stage) (choices : List Choice)
    (h : g'.offers = g.offers ++ [.ofChoices choices]) (offer : Nat) :
    g'.selection offer = g.selection offer := by
  unfold Stage.selection
  rw [h]
  rcases Nat.lt_trichotomy offer g.offers.length with hlt | heq | hgt
  · rw [List.getElem?_append_left hlt]
  · subst heq
    simp [Offer.ofChoices]
  · rw [List.getElem?_eq_none (by simp; omega), List.getElem?_eq_none (by omega)]

theorem next_selection (h : Sound n e) (limit offer : Nat) :
    (e.call (.next limit)).2.stage.selection offer = e.stage.selection offer := by
  have ha := (h.orderly.next limit).2
  rw [call_next]
  generalize e.run.next limit e.stage = result at ha ⊢
  cases ha with
  | presents choices g' r' presentable uniform running offers pending =>
    exact selection_append_ofChoices e.stage g' choices offers offer
  | waits => rfl
  | rests => rfl
  | passes a g' r' offers pending told failed => simp only [Stage.selection, offers]

/-- A successful selection answers one offer that had no answer, and changes no other answer. -/
theorem select_selection (e : Encounter) (offer index other : Nat) :
    ((e.call (.select offer index)).1 = .selected → e.stage.selection offer = none) ∧
    (e.call (.select offer index)).2.stage.selection other =
      if offer = other ∧ (e.call (.select offer index)).1 = .selected then some index
      else e.stage.selection other := by
  rcases e.call_select offer index with ⟨o, ho, hs, _, hc⟩ | ⟨hn, hc⟩
  · have hlt : offer < e.stage.offers.length := (List.getElem?_eq_some_iff.1 ho).1
    rw [hc]
    refine ⟨fun _ => by simp [Stage.selection, ho, hs], ?_⟩
    by_cases h : offer = other
    · subst h
      simp [Stage.selection, hlt]
    · simp [Stage.selection, h]
  · rw [hc]
    exact ⟨fun he => absurd he hn, by simp [hn]⟩

theorem call_selection (h : Sound n e) (c : Call) (offer index : Nat) :
    (e.call c).2.stage.selection offer = some index ↔
      e.stage.selection offer = some index ∨
        (.select offer index, .selected) = (c, (e.call c).1) := by
  cases c with
  | next limit => simp [next_selection h]
  | write name value => simp [call, writing, Stage.selection]
  | select number position =>
    obtain ⟨hnone, hs⟩ := e.select_selection number position offer
    rw [hs]
    by_cases hc : number = offer ∧ (e.call (.select number position)).1 = .selected
    · obtain ⟨rfl, hr⟩ := hc
      simp [hr, hnone hr, eq_comm]
    · rw [if_neg hc]
      constructor
      · exact Or.inl
      · rintro (hsel | he)
        · exact hsel
        · obtain ⟨hcall, hreply⟩ := Prod.mk.inj he
          cases hcall
          exact absurd ⟨rfl, hreply.symm⟩ hc

theorem after_selection (h : Sound n e) (calls : List Call) (offer index : Nat) :
    (e.after calls).stage.selection offer = some index ↔
      e.stage.selection offer = some index ∨
        (.select offer index, .selected) ∈ e.transcript calls := by
  induction calls generalizing e with
  | nil => simp [after, transcript]
  | cons c calls ih =>
    rw [after, ih (h.call c), call_selection h, transcript, List.mem_cons, or_assoc]

def selects (offer : Nat) : Call × Reply → Bool
  | (.select number _, .selected) => number == offer
  | _ => false

theorem eq_select_of_selects {offer : Nat} {c : Call} {reply : Reply}
    (h : selects offer (c, reply) = true) :
    ∃ index, c = .select offer index ∧ reply = .selected := by
  unfold selects at h
  split at h
  · rename_i number index he
    cases he
    exact ⟨index, by rw [beq_iff_eq.1 h], rfl⟩
  · cases h

/-- An offer without an answer is answered at most once, one with an answer never again. -/
theorem count_selects (h : Sound n e) (calls : List Call) (offer : Nat) :
    (e.transcript calls).countP (selects offer) ≤
      if e.stage.selection offer = none then 1 else 0 := by
  induction calls generalizing e with
  | nil => exact Nat.zero_le _
  | cons c calls ih =>
    have hrest := ih (h.call c)
    rw [transcript, List.countP_cons]
    by_cases hs : selects offer (c, (e.call c).1) = true
    · obtain ⟨index, rfl, hr⟩ := eq_select_of_selects hs
      have hbehind : (e.call (.select offer index)).2.stage.selection offer = some index :=
        (call_selection h _ offer index).2 (Or.inr (by rw [hr]))
      have hbefore := (e.select_selection offer index offer).1 hr
      rw [hbehind, if_neg (by simp)] at hrest
      rw [if_pos hs, if_pos hbefore]
      omega
    · rw [if_neg hs]
      refine Nat.le_trans hrest ?_
      split
      · rename_i hbehind
        have hbefore : e.stage.selection offer = none := by
          cases hsel : e.stage.selection offer with
          | none => rfl
          | some index =>
            rw [(call_selection h c offer index).2 (Or.inl hsel)] at hbehind
            cases hbehind
        rw [if_pos hbefore]
      · exact Nat.zero_le _

theorem Sound.waiting {p : Pending} (h : Sound n e) (hp : e.run.pending = some p) :
    e.run.start = none ∧ e.run.done = false := by
  constructor
  · cases hs : e.run.start with
    | none => rfl
    | some title =>
      rw [h.orderly.start title hs] at hp
      cases hp
  · cases hd : e.run.done with
    | false => rfl
    | true =>
      rw [h.done hd] at hp
      cases hp

theorem call_next_of_unanswered {p : Pending} (h : Sound n e) (hp : e.run.pending = some p)
    (hs : e.stage.selection p.offer = none) (limit : Nat) :
    e.call (.next (limit + 1)) = (.answer (.failed .unresolvedChoice), e) := by
  obtain ⟨hstart, hdone⟩ := h.waiting hp
  have hstep : Run.step e.stage e.run = (.waiting, e.stage, e.run) := by
    simp [Run.step, hstart, hp, Run.resume, hs]
  rw [call_next, Run.next_of_not_done hdone, Run.advance, hstep]
  rfl

def goOn (e : Encounter) (limit : Nat) (choice : Choice) : Reply × Encounter :=
  match Run.follow e.stage { e.run with pending := none } choice with
  | (.silent, stage, run) => call ⟨stage, run⟩ (.next limit)
  | outcome =>
    match Run.report outcome with
    | (answer, stage, run) => (.answer answer, ⟨stage, run⟩)

theorem call_next_of_answered {p : Pending} {index : Nat} (h : Sound n e)
    (hp : e.run.pending = some p) (hs : e.stage.selection p.offer = some index) :
    ∃ choice, p.choices[index]? = some choice ∧
      ∀ limit, e.call (.next (limit + 1)) = e.goOn limit choice := by
  obtain ⟨hstart, hdone⟩ := h.waiting hp
  obtain ⟨o, ho, -, hrange⟩ := (h.orderly.pending p hp).offer
  have hlt : index < p.choices.length := hrange index (by simpa [Stage.selection, ho] using hs)
  have hc : p.choices[index]? = some p.choices[index] := List.getElem?_eq_getElem hlt
  refine ⟨p.choices[index], hc, fun limit => ?_⟩
  have hstep : Run.step e.stage e.run =
      Run.follow e.stage { e.run with pending := none } p.choices[index] := by
    simp [Run.step, hstart, hp, Run.resume, hs, hc]
  have hkeeps := (Run.follow_keeps e.stage { e.run with pending := none } p.choices[index]).done
  rw [call_next, Run.next_of_not_done hdone, Run.advance, hstep]
  unfold goOn
  generalize Run.follow e.stage { e.run with pending := none } p.choices[index] = outcome
    at hkeeps ⊢
  obtain ⟨progress, stage, run⟩ := outcome
  cases progress with
  | silent =>
    simp only
    rw [call_next, Run.next_of_not_done (hkeeps.trans hdone)]
  | cue | ended | waiting | failed => rfl

end Encounter

/-! ### Offers that the run does not wait for -/

/-- Two stages that differ in nothing but the answer to one offer. -/
structure Stage.Agree (offer : Nat) (g g' : Stage) : Prop where
  library : g.library = g'.library
  session : g.session = g'.session
  length : g.offers.length = g'.offers.length
  offers : ∀ other, other ≠ offer → g.offers[other]? = g'.offers[other]?

namespace Run

structure Agree (offer : Nat) (a b : Outcome) : Prop where
  progress : a.1 = b.1
  run : a.2.2 = b.2.2
  stage : a.2.1.Agree offer b.2.1

variable {offer : Nat} {g g' : Stage}

theorem enterNode_agree (h : g.Agree offer g') (r : Run) (title : String) :
    Agree offer (enterNode g r title) (enterNode g' r title) := by
  unfold enterNode
  rw [← h.library, ← h.session]
  split <;> exact ⟨rfl, rfl, rfl, rfl, h.length, h.offers⟩

theorem follow_agree (h : g.Agree offer g') (r : Run) (choice : Choice) :
    Agree offer (follow g r choice) (follow g' r choice) := by
  cases choice with
  | link line destination => exact enterNode_agree h r destination
  | option line label destination => exact enterNode_agree h r destination
  | shortcut line label body => exact ⟨rfl, rfl, h⟩

theorem present_agree (h : g.Agree offer g') (r : Run) (choices : List Choice) :
    Agree offer (present g r choices) (present g' r choices) := by
  unfold present
  split
  · exact ⟨rfl, rfl, h⟩
  · exact follow_agree h r _
  · simp only [h.length]
    refine ⟨rfl, rfl, h.library, h.session, by simp [h.length], fun other ho => ?_⟩
    simp only [List.getElem?_append, h.length, h.offers other ho]

theorem execute_agree (h : g.Agree offer g') (r : Run) (s : Statement) :
    Agree offer (execute g r s) (execute g' r s) := by
  unfold execute
  rw [← h.session]
  split
  · exact ⟨rfl, rfl, h⟩
  · split <;> exact ⟨rfl, rfl, h⟩
  · split <;> exact ⟨rfl, rfl, h.library, rfl, h.length, h.offers⟩
  · split <;> exact ⟨rfl, rfl, h.library, rfl, h.length, h.offers⟩
  · exact ⟨rfl, rfl, h⟩

theorem take_agree (h : g.Agree offer g') (r : Run) (frame : Frame) (below : List Frame)
    (s : Statement) (rest : List Statement) :
    Agree offer (take g r frame below s rest) (take g' r frame below s rest) := by
  have hs (session : Session) :
      Stage.Agree offer { g with session := session } { g' with session := session } :=
    ⟨h.library, rfl, h.length, h.offers⟩
  unfold take
  rw [← h.session]
  simp only
  split
  · split
    · exact ⟨rfl, rfl, hs _⟩
    · exact ⟨rfl, rfl, hs _⟩
    · unfold gather
      split
      · exact ⟨rfl, rfl, hs _⟩
      · exact present_agree (hs _) _ _
  · split
    · exact execute_agree h _ s
    · exact present_agree h _ _

theorem leave_agree (h : g.Agree offer g') (r : Run) (frame : Frame) (below : List Frame) :
    Agree offer (leave g r frame below) (leave g' r frame below) := by
  unfold leave
  split
  · exact ⟨rfl, rfl, h⟩
  · exact present_agree h _ _

theorem resume_agree (h : g.Agree offer g') (r : Run) {p : Pending} (hp : p.offer ≠ offer) :
    Agree offer (resume g r p) (resume g' r p) := by
  unfold resume
  rw [Stage.selection, Stage.selection, ← h.offers p.offer hp]
  split
  · exact ⟨rfl, rfl, h⟩
  · split
    · exact ⟨rfl, rfl, h⟩
    · exact follow_agree h _ _

/-- A step does the same on two stages that agree but for an offer it does not wait for. -/
theorem step_agree (h : g.Agree offer g') (r : Run)
    (hp : ∀ p, r.pending = some p → p.offer ≠ offer) :
    Agree offer (step g r) (step g' r) := by
  unfold step
  split
  · exact enterNode_agree h _ _
  · rename_i p _ hpend
    exact resume_agree h r (hp p hpend)
  · exact ⟨rfl, rfl, h⟩
  · split
    · exact leave_agree h r _ _
    · exact take_agree h r _ _ _ _

theorem advance_agree (h : g.Agree offer g') {r : Run} (ho : Orderly g.offers r)
    (hlt : offer < g.offers.length) (hp : ∀ p, r.pending = some p → p.offer ≠ offer)
    (limit : Nat) : Agree offer (advance limit g r) (advance limit g' r) := by
  induction limit generalizing g g' r with
  | zero => exact ⟨rfl, rfl, h⟩
  | succ limit ih =>
    have hs := step_agree h r hp
    have hstep := ho.step
    unfold advance
    generalize step g r = a at hs hstep ⊢
    generalize step g' r = b at hs ⊢
    obtain ⟨progress, stage, run⟩ := a
    obtain ⟨progress', stage', run'⟩ := b
    obtain ⟨hprogress, hrun, hstage⟩ := hs
    simp only at hprogress hrun
    subst hprogress hrun
    cases progress with
    | silent =>
      obtain ⟨ho', ⟨choices, hpres⟩ | ⟨he, _⟩ | hpass⟩ := hstep
      · cases hpres.progress
      · cases he
      · refine ih hstage ho' ?_ ?_
        · rw [hpass.offers]
          exact hlt
        · intro p hpend
          rw [hpass.pending] at hpend
          cases hpend
    | cue | ended | waiting | failed => exact ⟨rfl, rfl, hstage⟩

end Run

namespace Encounter
open Run (Orderly)

structure Past (offer : Nat) (e : Encounter) : Prop where
  made : offer < e.stage.offers.length
  pending : ∀ p, e.run.pending = some p → p.offer ≠ offer

variable {n offer : Nat} {e e' : Encounter}

/-- The run never comes back to an offer of the past: the next one has another number. -/
theorem Past.next (h : Past offer e) (hs : Sound n e) (limit : Nat) :
    Past offer (e.call (.next limit)).2 := by
  have ha := (hs.orderly.next limit).2
  have hmade := h.made
  rw [call_next]
  generalize e.run.next limit e.stage = result at ha ⊢
  cases ha with
  | presents choices g' r' presentable uniform running offers pending =>
    refine ⟨?_, fun p hp => ?_⟩
    · simp only [offers, List.length_append, List.length_singleton]
      omega
    · rw [pending] at hp
      cases hp
      exact Nat.ne_of_gt hmade
  | waits => exact h
  | rests => exact h
  | passes a g' r' offers pending told failed =>
    refine ⟨by simpa only [offers] using hmade, fun p hp => ?_⟩
    rw [pending] at hp
    cases hp

structure Agree (offer : Nat) (e e' : Encounter) : Prop where
  run : e.run = e'.run
  stage : e.stage.Agree offer e'.stage

theorem next_agree (h : Agree offer e e') (hs : Sound n e) (hp : Past offer e) (limit : Nat) :
    (e.call (.next limit)).1 = (e'.call (.next limit)).1 ∧
      Agree offer (e.call (.next limit)).2 (e'.call (.next limit)).2 := by
  rw [call_next, call_next, ← h.run]
  by_cases hd : e.run.done = true
  · rw [Run.next_of_done hd, Run.next_of_done hd]
    exact ⟨rfl, rfl, h.stage⟩
  · have hd' : e.run.done = false := by simpa using hd
    rw [Run.next_of_not_done hd', Run.next_of_not_done hd']
    obtain ⟨hprogress, hrun, hstage⟩ :=
      Run.advance_agree h.stage hs.orderly hp.made hp.pending limit
    obtain ⟨hanswer, hrun, hstage⟩ := Run.report_congr hprogress hrun hstage
    exact ⟨congrArg Reply.answer hanswer, hrun, hstage⟩

def attempted (index : Nat) (o : Offer) : Offer :=
  match o.select index with
  | .ok o => o
  | .error _ => o

theorem select_state (e : Encounter) (number index : Nat) :
    (e.call (.select number index)).2 = { e with stage := { e.stage with
      offers := e.stage.offers.modify number (attempted index) } } := by
  have hmodify : (e.call (.select number index)).2.stage.offers =
      e.stage.offers.modify number (attempted index) := by
    refine List.ext_getElem? fun other => ?_
    rw [List.getElem?_modify]
    by_cases ho : number = other
    · subst ho
      simp only [call, Stage.select, attempted]
      cases hn : e.stage.offers[number]? with
      | none => simp [hn]
      | some o =>
        have hlt : number < e.stage.offers.length := (List.getElem?_eq_some_iff.1 hn).1
        cases hsel : o.select index with
        | ok taken => simp [hsel, hlt]
        | error error => simp [hn, hsel]
    · rcases e.call_select number index with ⟨o, _, _, _, hc⟩ | ⟨_, hc⟩ <;> simp [hc, ho]
  rcases e.call_select number index with ⟨o, _, _, _, hc⟩ | ⟨_, hc⟩
  · rw [hc] at hmodify ⊢
    rw [← hmodify]
  · rw [hc] at hmodify ⊢
    rw [← hmodify]

theorem select_agree (h : Agree offer e e') (number index : Nat) :
    Agree offer (e.call (.select number index)).2 (e'.call (.select number index)).2 := by
  rw [select_state, select_state]
  refine ⟨h.run, h.stage.library, h.stage.session, by simp [h.stage.length], fun other ho => ?_⟩
  simp only [List.getElem?_modify, h.stage.offers other ho]

theorem call_agree (h : Agree offer e e') (hs : Sound n e) (hp : Past offer e) (c : Call) :
    (e.call c).1.answer? = (e'.call c).1.answer? ∧ Agree offer (e.call c).2 (e'.call c).2 ∧
      Past offer (e.call c).2 := by
  cases c with
  | next limit =>
    obtain ⟨hr, ha⟩ := next_agree h hs hp limit
    exact ⟨congrArg Reply.answer? hr, ha, hp.next hs limit⟩
  | select number index =>
    have hnone : ∀ d : Encounter, (d.call (.select number index)).1.answer? = none := by
      intro d
      simp only [call]
      split <;> rfl
    refine ⟨by rw [hnone, hnone], select_agree h number index, ?_⟩
    rw [select_state]
    exact ⟨by simpa using hp.made, hp.pending⟩
  | write name value =>
    refine ⟨rfl, ⟨h.run, h.stage.library, ?_, h.stage.length, h.stage.offers⟩, hp.made, hp.pending⟩
    simp only [call, writing, h.stage.session]

def answers (told : List (Call × Reply)) : List Run.Answer :=
  told.filterMap fun entry => entry.2.answer?

theorem after_agree (h : Agree offer e e') (hs : Sound n e) (hp : Past offer e)
    (calls : List Call) :
    answers (e.transcript calls) = answers (e'.transcript calls) ∧
      Agree offer (e.after calls) (e'.after calls) := by
  induction calls generalizing e e' with
  | nil => exact ⟨rfl, h⟩
  | cons c calls ih =>
    obtain ⟨hr, ha, hpast⟩ := call_agree h hs hp c
    obtain ⟨hrest, hafter⟩ := ih ha (hs.call c) hpast
    refine ⟨?_, hafter⟩
    unfold answers at hrest ⊢
    rw [transcript, transcript, List.filterMap_cons, List.filterMap_cons, hr, hrest]

/-- A selection of an option of another offer than the pending one changes nothing for the run,
now or later. -/
theorem select_unnoticed (hs : Sound n e) (hp : ∀ p, e.run.pending = some p → p.offer ≠ offer)
    (index : Nat) (later : List Call) :
    answers (e.transcript later) = answers ((e.call (.select offer index)).2.transcript later) ∧
      Agree offer (e.after later) ((e.call (.select offer index)).2.after later) := by
  rcases e.call_select offer index with ⟨o, ho, _, _, hc⟩ | ⟨_, hc⟩
  · have hlt : offer < e.stage.offers.length := (List.getElem?_eq_some_iff.1 ho).1
    refine after_agree ?_ hs ⟨hlt, hp⟩ later
    rw [hc]
    exact ⟨rfl, rfl, rfl, by simp, fun other hne => by simp [Ne.symm hne]⟩
  · rw [hc]
    exact ⟨rfl, rfl, rfl, rfl, rfl, fun _ _ => rfl⟩

/-- For every run and all calls of the host: without the calls that came to nothing, all others give
the same replies and everything ends the same; a run that waits says so until an option of the very
offer it waits for has been selected, and then goes on with that choice; no offer is answered twice,
and an answer to another offer than the pending one makes no difference to the run, now or later. -/
theorem exchange_protocol (stage : Stage) (title : String) (calls : List Call) :
    let first := opening stage title
    let told := first.transcript calls
    let e := first.after calls
    (first.transcript ((effective told).map Prod.fst) = effective told ∧
      first.after ((effective told).map Prod.fst) = e) ∧
    (∀ p, e.run.pending = some p →
      ((∀ index, (.select p.offer index, .selected) ∉ told) →
        ∀ limit, e.call (.next (limit + 1)) = (.answer (.failed .unresolvedChoice), e)) ∧
      ∀ index, (.select p.offer index, .selected) ∈ told →
        ∃ choice, p.choices[index]? = some choice ∧
          ∀ limit, e.call (.next (limit + 1)) = e.goOn limit choice) ∧
    ∀ offer,
      told.countP (selects offer) ≤ 1 ∧
      ((∀ p, e.run.pending = some p → p.offer ≠ offer) → ∀ index later,
        let e' := (e.call (.select offer index)).2
        answers (e'.transcript later) = answers (e.transcript later) ∧
          (e'.after later).run = (e.after later).run ∧
          (e'.after later).stage.session = (e.after later).stage.session ∧
          (e'.after later).stage.library = (e.after later).stage.library) := by
  intro first told e
  have hfirst : Sound stage.offers.length first := sound_opening stage title
  have hs : Sound stage.offers.length e := after_sound stage title calls
  refine ⟨replay_effective hfirst calls, fun p hp => ?_, fun offer => ⟨?_, ?_⟩⟩
  · -- The offer has been made by this run, so all selections of it stand in the transcript.
    have hnew : first.stage.selection p.offer = none := by
      have hown : first.stage.offers.length ≤ p.offer := hs.own p hp
      simp [Stage.selection, List.getElem?_eq_none hown]
    have hiff : ∀ index, e.stage.selection p.offer = some index ↔
        (.select p.offer index, .selected) ∈ told := by
      intro index
      rw [after_selection hfirst calls, hnew]
      simp [told]
    constructor
    · intro hnone limit
      refine call_next_of_unanswered hs hp ?_ limit
      rw [Option.eq_none_iff_forall_ne_some]
      exact fun index hi => hnone index ((hiff index).1 hi)
    · intro index hi
      exact call_next_of_answered hs hp ((hiff index).2 hi)
  · refine Nat.le_trans (count_selects hfirst calls offer) ?_
    split <;> omega
  · intro hp index later
    obtain ⟨ha, hagree⟩ := select_unnoticed hs hp index later
    exact ⟨ha.symm, hagree.run.symm, hagree.stage.session.symm, hagree.stage.library.symm⟩

/-- A host that asks too early, selects out of range and selects twice. -/
def hasty : List Call := [.next 9, .next 9, .select 0 2, .select 0 1, .select 0 0, .next 9]

theorem hasty_transcript : (opening fork "Start").transcript hasty =
    [(.next 9, .answer (.cue (.options 0 ⟨["Left", "Right"], [1, 2], none⟩))),
      (.next 9, .answer (.failed .unresolvedChoice)),
      (.select 0 2, .refused (.invalidSelection 2 2)),
      (.select 0 1, .selected),
      (.select 0 0, .refused (.alreadySelected 1)),
      (.next 9, .answer (.cue (.complete "Start")))] := by
  cbv

theorem exchange_protocol_hasty :
    (opening fork "Start").after hasty =
      (opening fork "Start").after [.next 9, .select 0 1, .next 9] := by
  obtain ⟨⟨-, hafter⟩, -⟩ := exchange_protocol fork "Start" hasty
  rw [hasty_transcript] at hafter
  exact hafter.symm

end Encounter

end Dialogue
