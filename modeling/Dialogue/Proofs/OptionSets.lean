import Dialogue.Proofs.Exchange

/-!
# Option sets

What waits in a frame is of one kind, and what has been presented is of one kind, is
not empty and is not a lone link. A run that waits keeps exactly the choices of the
offer it made last (`Run.Orderly`). Each step keeps this, and what it tells the host
fits to it (`Run.Orderly.step`), so it holds whatever the host calls for, and the run
never comes upon a selection that is out of range.
-/

namespace Dialogue

open Performance (Uniform uniform_nil uniform_singleton uniform_append accepts_eq_all)

/-- The pending record of a run fits to an offer that has been made. -/
structure Pending.Fits (p : Pending) (offers : List Offer) : Prop where
  presentable : Run.Presentable p.choices
  uniform : Uniform p.choices
  offer : ∃ o, offers[p.offer]? = some o ∧ o.labels.length = p.choices.length ∧
    ∀ index, o.selection = some index → index < p.choices.length

namespace Run

/-- What holds of a run between two steps, given the offers that have been made. -/
structure Orderly (offers : List Offer) (r : Run) : Prop where
  start : ∀ title, r.start = some title → r.pending = none
  frames : ∀ frame ∈ r.frames, Uniform frame.choices
  pending : ∀ p, r.pending = some p → p.Fits offers

/-- Nothing is asked of a run that performs no statements and waits for no answer. -/
theorem orderly_of_idle {offers : List Offer} {r : Run} (hf : r.frames = [])
    (hp : r.pending = none) : Orderly offers r where
  start _ _ := hp
  frames := by
    rw [hf]
    nofun
  pending := by
    rw [hp]
    nofun

variable {g : Stage} {r : Run} {offers : List Offer}

theorem Orderly.top {frame frame' : Frame} {below : List Frame} (h : Orderly offers r)
    (hp : r.Playing frame below) (hu : Uniform frame'.choices) :
    ∀ f ∈ frame' :: below, Uniform f.choices := by
  intro f hf
  rcases List.mem_cons.1 hf with rfl | hf
  · exact hu
  · exact h.frames f (by rw [hp.frames]; exact List.mem_cons_of_mem _ hf)

theorem Orderly.uniform {frame : Frame} {below : List Frame} (h : Orderly offers r)
    (hp : r.Playing frame below) : Uniform frame.choices :=
  h.frames frame (by rw [hp.frames]; exact List.mem_cons_self)

/-! ### What a step tells -/

/-- A step presents choices and waits for an answer. -/
structure Presents (g : Stage) (choices : List Choice) (outcome : Outcome) : Prop where
  presentable : Presentable choices
  uniform : Uniform choices
  progress : outcome.1 = .cue (.options g.offers.length (.ofChoices choices))
  offers : outcome.2.1.offers = g.offers ++ [.ofChoices choices]
  pending : outcome.2.2.pending = some ⟨g.offers.length, choices⟩

structure Passes (g : Stage) (outcome : Outcome) : Prop where
  progress : outcome.1 ≠ .waiting ∧ ∀ number offer, outcome.1 ≠ .cue (.options number offer)
  failed : ∀ e, outcome.1 = .failed e → e.isSelection = false
  offers : outcome.2.1.offers = g.offers
  pending : outcome.2.2.pending = none

/-- A step of an orderly run. -/
structure Conforms (g : Stage) (r : Run) (outcome : Outcome) : Prop where
  orderly : Orderly outcome.2.1.offers outcome.2.2
  told : (∃ choices, Presents g choices outcome) ∨
    (outcome = (.waiting, g, r) ∧ r.pending ≠ none) ∨ Passes g outcome

theorem Opens.conforms {r' : Run} {outcome : Outcome} (h : Opens g r' outcome)
    (hp : r'.pending = none) (hf : ∀ frame ∈ r'.frames, Uniform frame.choices) :
    Conforms g r outcome := by
  have hnone : outcome.2.2.pending = none := h.pending.trans hp
  refine ⟨⟨fun _ _ => hnone, ?_, ?_⟩, Or.inr (Or.inr ⟨h.progress, h.failed, h.offers, hnone⟩)⟩
  · intro frame hframe
    rcases h.frames with hs | hs | ⟨opened, ho, hs⟩
    · exact hf frame (hs ▸ hframe)
    · rw [hs] at hframe
      cases hframe
    · rw [hs] at hframe
      rcases List.mem_cons.1 hframe with rfl | hframe
      · rw [ho]
        exact uniform_nil
      · exact hf frame hframe
  · intro p hpend
    rw [hnone] at hpend
    cases hpend

theorem present_conforms {g' : Stage} {r' : Run} {choices : List Choice}
    (ho : g'.offers = g.offers) (hs : r'.start = none) (hp : r'.pending = none)
    (hf : ∀ frame ∈ r'.frames, Uniform frame.choices) (hu : Uniform choices) :
    Conforms g r (present g' r' choices) := by
  rcases present_cases g' r' choices with ⟨hopens, _⟩ | ⟨hpres, he⟩
  · have hc := hopens.conforms (r := r) hp hf
    refine ⟨hc.orderly, Or.inr (Or.inr ⟨hopens.progress, hopens.failed, ?_, ?_⟩)⟩
    · rw [hopens.offers, ho]
    · exact hopens.pending.trans hp
  · rw [he, ho]
    refine ⟨⟨?_, hf, ?_⟩, Or.inl ⟨choices, hpres, hu, rfl, rfl, rfl⟩⟩
    · intro title ht
      rw [hs] at ht
      cases ht
    · intro p hpend
      cases hpend
      refine ⟨hpres, hu, .ofChoices choices, by simp, by simp [Offer.ofChoices], ?_⟩
      intro index hi
      cases hi

theorem moved_conforms {g' : Stage} {frames : List Frame} {progress : Progress}
    (hs : r.start = none) (hp : r.pending = none) (ho : g'.offers = g.offers)
    (hf : ∀ frame ∈ frames, Uniform frame.choices)
    (ht : progress ≠ .waiting ∧ ∀ number offer, progress ≠ .cue (.options number offer))
    (hfail : ∀ e, progress = .failed e → e.isSelection = false) :
    Conforms g r (progress, g', { r with frames := frames }) := by
  refine ⟨⟨?_, hf, ?_⟩, Or.inr (Or.inr ⟨ht, hfail, ho, hp⟩)⟩
  · intro title h
    rw [hs] at h
    cases h
  · intro p hpend
    rw [hp] at hpend
    cases hpend

/-- An orderly run stays orderly, and what it tells fits to it. -/
theorem Orderly.step (h : Orderly g.offers r) : Conforms g r (step g r) := by
  have hm := step_move g r
  generalize Run.step g r = outcome at hm
  cases hm with
  | enter title start =>
    exact (enterNode_opens g { r with start := none } title).conforms (h.start title start) h.frames
  | wait p start pending selection => exact ⟨h, Or.inr (Or.inl ⟨rfl, by simp [pending]⟩)⟩
  | stray p index start pending selection choice =>
    obtain ⟨o, ho, -, hindex⟩ := (h.pending p pending).offer
    rw [Stage.selection, ho] at selection
    have hlt := hindex index selection
    rw [List.getElem?_eq_none_iff] at choice
    omega
  | resume p index choice start pending selection found =>
    exact (follow_opens g { r with pending := none } choice).conforms rfl h.frames
  | finish start pending frames =>
    refine ⟨h, Or.inr (Or.inr ⟨by simp, by simp, rfl, pending⟩)⟩
  | leave frame below playing rest choices =>
    refine moved_conforms playing.start playing.pending rfl (fun f hf => ?_) ?_ ?_
    · exact h.frames f (by rw [playing.frames]; exact List.mem_cons_of_mem _ hf)
    · split <;> simp
    · split <;> simp
  | flush frame below playing choices plain =>
    exact present_conforms rfl playing.start playing.pending (h.top playing uniform_nil)
      (h.uniform playing)
  | execute frame below s rest playing here choices plain =>
    have hu := h.uniform playing
    exact (execute_opens g _ s).conforms playing.pending (h.top playing hu)
  | fail frame below s rest choice condition e session playing here found holds =>
    have hu := h.uniform playing
    refine moved_conforms playing.start playing.pending rfl (h.top playing hu) (by simp)
      (fun err he => ?_)
    cases he
    exact Session.holds_error (by rw [holds])
  | drop frame below s rest choice condition session playing here found holds =>
    have hu := h.uniform playing
    exact moved_conforms playing.start playing.pending rfl (h.top playing hu) (by simp) (by simp)
  | gather frame below s rest choice condition session playing here found holds accepts =>
    have hu := h.uniform playing
    rw [accepts_eq_all frame choice hu] at accepts
    have hu' := uniform_append accepts
    exact moved_conforms playing.start playing.pending rfl (h.top playing hu') (by simp) (by simp)
  | change frame below s rest choice condition session playing here found holds refuses =>
    have hu := uniform_singleton choice
    exact present_conforms rfl playing.start playing.pending (h.top playing hu) (h.uniform playing)

/-- What the host gets from an orderly run when it asks for the next cue. -/
inductive Answered (g : Stage) (r : Run) : Answer × Stage × Run → Prop
  | presents (choices : List Choice) (g' : Stage) (r' : Run) (presentable : Presentable choices)
    (uniform : Uniform choices) (running : r'.done = false)
    (offers : g'.offers = g.offers ++ [.ofChoices choices])
    (pending : r'.pending = some ⟨g.offers.length, choices⟩) :
    Answered g r (.cue (.options g.offers.length (.ofChoices choices)), g', r')
  | waits (pending : r.pending ≠ none) : Answered g r (.failed .unresolvedChoice, g, r)
  | rests (a : Answer) (nothing : a = .finished ∨ a = .unsettled) : Answered g r (a, g, r)
  | passes (a : Answer) (g' : Stage) (r' : Run) (offers : g'.offers = g.offers)
    (pending : r'.pending = none) (told : ∀ number offer, a ≠ .cue (.options number offer))
    (failed : ∀ e, a = .failed e → e.isSelection = false) : Answered g r (a, g', r')

/-- A place that silent steps lead to from another one. -/
structure Quiet (g : Stage) (r : Run) (g' : Stage) (r' : Run) : Prop where
  orderly : Orderly g'.offers r'
  running : r'.done = false
  offers : g'.offers = g.offers
  moved : r'.pending = none ∨ g' = g ∧ r' = r

theorem Quiet.step {g' : Stage} {r' : Run} (h : Quiet g r g' r')
    (hs : (Run.step g' r').1 = .silent) :
    Quiet g r (Run.step g' r').2.1 (Run.step g' r').2.2 := by
  obtain ⟨ho, ⟨choices, hp⟩ | ⟨he, _⟩ | hp⟩ := h.orderly.step
  · rw [hp.progress] at hs
    cases hs
  · rw [he] at hs
    cases hs
  · exact ⟨ho, (step_keeps g' r').done.trans h.running, hp.offers.trans h.offers,
      Or.inl hp.pending⟩

theorem Quiet.report {g' : Stage} {r' : Run} (h : Quiet g r g' r')
    (hs : (Run.step g' r').1 ≠ .silent) :
    Orderly (report (Run.step g' r')).2.1.offers (report (Run.step g' r')).2.2 ∧
      Answered g r (report (Run.step g' r')) := by
  have hd : (Run.step g' r').2.2.done = false := (step_keeps g' r').done.trans h.running
  obtain ⟨ho, ht⟩ := h.orderly.step
  generalize Run.step g' r' = outcome at hs hd ho ht
  obtain ⟨progress, stage, run⟩ := outcome
  rcases ht with ⟨choices, hp⟩ | ⟨he, hp⟩ | hp
  · obtain rfl : progress = _ := hp.progress
    have ho' : stage.offers = g.offers ++ [.ofChoices choices] := by
      rw [← h.offers]
      exact hp.offers
    have hp' := hp.pending
    rw [h.offers] at hp' ⊢
    exact ⟨ho, .presents choices stage run hp.presentable hp.uniform hd ho' hp'⟩
  · -- A run that waits has done nothing before.
    cases he
    obtain ⟨rfl, rfl⟩ := h.moved.resolve_left hp
    exact ⟨ho, .waits hp⟩
  · obtain ⟨⟨hw, hc⟩, hf, hoffers, hn⟩ := hp
    have ho' : stage.offers = g.offers := hoffers.trans h.offers
    cases progress with
    | silent => exact absurd rfl hs
    | waiting => exact absurd rfl hw
    | cue c =>
      refine ⟨ho, .passes _ _ _ ho' hn (fun number offer he => ?_) (by simp)⟩
      cases he
      exact hc number offer rfl
    | ended =>
      exact ⟨⟨ho.start, ho.frames, ho.pending⟩, .passes _ _ _ ho' hn (by simp) (by simp)⟩
    | failed e =>
      refine ⟨orderly_of_idle rfl rfl, .passes _ _ _ ho' rfl (by simp) (fun err he => ?_)⟩
      cases he
      exact hf e rfl

/-- An orderly run stays orderly, and its answer fits to it. -/
theorem Orderly.next (h : Orderly g.offers r) (limit : Nat) :
    Orderly (next limit g r).2.1.offers (next limit g r).2.2 ∧ Answered g r (next limit g r) := by
  by_cases hd : r.done = true
  · rw [next_of_done hd]
    exact ⟨h, .rests _ (Or.inl rfl)⟩
  · have hd' : r.done = false := by simpa using hd
    rw [next_of_not_done hd']
    rcases advance_cases (fun g' r' => Quiet.step) limit
      (⟨h, hd', rfl, Or.inr ⟨rfl, rfl⟩⟩ : Quiet g r g r) with
      ⟨g', r', hq, he⟩ | ⟨g', r', hq, hs, he⟩
    · rw [he]
      refine ⟨hq.orderly, ?_⟩
      rcases hq.moved with hp | ⟨rfl, rfl⟩
      · exact .passes _ _ _ hq.offers hp (by simp) (by simp)
      · exact .rests _ (Or.inr rfl)
    · rw [he]
      exact hq.report hs

end Run

/-! ### Whole exchanges -/

def Reply.offer? : Reply → Option (Nat × Offer)
  | .answer (.cue (.options number offer)) => some (number, offer)
  | _ => none

namespace Encounter
open Run (Orderly orderly_of_idle Answered)

theorem call_orderly (e : Encounter) (c : Call) (h : Orderly e.stage.offers e.run) :
    Orderly (e.call c).2.stage.offers (e.call c).2.run := by
  cases c with
  | next limit => exact (h.next limit).1
  | write name value => exact ⟨h.start, h.frames, h.pending⟩
  | select offer index =>
    rcases e.call_select offer index with ⟨o, ho, hs, hi, hc⟩ | ⟨_, hc⟩
    · rw [hc]
      refine ⟨h.start, h.frames, fun p hp => ?_⟩
      have hfits := h.pending p hp
      obtain ⟨q, hq, hl, hsel⟩ := hfits.offer
      by_cases hpo : offer = p.offer
      · subst hpo
        rw [ho] at hq
        cases hq
        have hlt : p.offer < e.stage.offers.length := (List.getElem?_eq_some_iff.1 ho).1
        refine ⟨hfits.presentable, hfits.uniform, { o with selection := some index }, ?_, hl, ?_⟩
        · simp [hlt]
        · intro selected he
          cases he
          omega
      · exact ⟨hfits.presentable, hfits.uniform, q, by simp [hpo, hq], hl, hsel⟩
    · rw [hc]
      exact h

theorem after_orderly (stage : Stage) (title : String) (calls : List Call) :
    Orderly ((opening stage title).after calls).stage.offers
      ((opening stage title).after calls).run :=
  after_induction (P := fun e => Orderly e.stage.offers e.run) call_orderly
    (orderly_of_idle rfl rfl) calls

def offersIn (told : List (Call × Reply)) : List (Nat × Offer) :=
  told.filterMap fun entry => entry.2.offer?

theorem offersIn_concat (told : List (Call × Reply)) (c : Call) (reply : Reply) :
    offersIn (told ++ [(c, reply)]) = offersIn told ++ reply.offer?.toList := by
  rw [offersIn, List.filterMap_append]
  cases h : reply.offer? with
  | none => simp [offersIn, h]
  | some found => simp [offersIn, h]

/-- The run waits for an answer to the offer that was made last, and for no other. -/
def Remembers (told : List (Call × Reply)) (e : Encounter) : Prop :=
  ∀ p, e.run.pending = some p → (offersIn told).getLast? = some (p.offer, .ofChoices p.choices)

theorem Remembers.concat {told : List (Call × Reply)} {e e' : Encounter} {c : Call} {reply : Reply}
    (h : Remembers told e) (hr : reply.offer? = none) (hp : e'.run.pending = e.run.pending) :
    Remembers (told ++ [(c, reply)]) e' := by
  intro p hpend
  rw [offersIn_concat, hr, Option.toList_none, List.append_nil]
  exact h p (hp ▸ hpend)

theorem call_remembers {told : List (Call × Reply)} {e : Encounter} (c : Call)
    (ho : Orderly e.stage.offers e.run) (h : Remembers told e) :
    Remembers (told ++ [(c, (e.call c).1)]) (e.call c).2 := by
  cases c with
  | next limit =>
    have ha := (ho.next limit).2
    rw [call_next]
    generalize e.run.next limit e.stage = result at ha ⊢
    cases ha with
    | presents choices g' r' presentable uniform running offers pending =>
      intro p hp
      rw [pending] at hp
      cases hp
      rw [offersIn_concat]
      exact List.getLast?_concat
    | waits => exact h.concat rfl rfl
    | rests a nothing =>
      rcases nothing with rfl | rfl
      · exact h.concat rfl rfl
      · exact h.concat rfl rfl
    | passes a g' r' offers pending told failed =>
      intro p hp
      rw [pending] at hp
      cases hp
  | select offer index =>
    rcases e.call_select offer index with ⟨o, _, _, _, hc⟩ | ⟨hn, hc⟩
    · rw [hc]
      exact h.concat rfl rfl
    · rw [hc]
      refine h.concat ?_ rfl
      simp only [call] at hn ⊢
      split <;> rfl
  | write name value => exact h.concat rfl rfl

theorem after_remembers (told : List (Call × Reply)) {e : Encounter} (calls : List Call)
    (ho : Orderly e.stage.offers e.run) (h : Remembers told e) :
    Remembers (told ++ e.transcript calls) (e.after calls) := by
  induction calls generalizing told e with
  | nil =>
    rw [transcript, List.append_nil]
    exact h
  | cons c calls ih =>
    have hrest := ih _ (call_orderly e c ho) (call_remembers c ho h)
    rw [List.append_assoc] at hrest
    exact hrest

/-- Whatever the host calls for: what waits in a frame is of one kind; a run that waits for an
answer keeps the choices of the offer made last, in their order; an offer has a label and a line for
every choice, at least one, all of one kind, and is no lone link; and no answer says that a
selection is out of range. -/
theorem option_sets_orderly (stage : Stage) (title : String) (calls : List Call) :
    let e := (opening stage title).after calls
    let told := (opening stage title).transcript calls
    (∀ frame ∈ e.run.frames, Uniform frame.choices) ∧
    (∀ p, e.run.pending = some p →
      (offersIn told).getLast? = some (p.offer, .ofChoices p.choices)) ∧
    ∀ limit,
      (∀ number offer, (e.call (.next limit)).1 = .answer (.cue (.options number offer)) →
        offer.labels ≠ [] ∧ offer.lines.length = offer.labels.length ∧
        ∃ choices, (e.call (.next limit)).2.run.pending = some ⟨number, choices⟩ ∧
          offer = .ofChoices choices ∧ Uniform choices ∧
          ∀ line destination, choices ≠ [.link line destination]) ∧
      ∀ index count,
        (e.call (.next limit)).1 ≠ .answer (.failed (.invalidSelection index count)) := by
  intro e told
  have ho : Orderly e.stage.offers e.run := after_orderly stage title calls
  have hr : Remembers told e := after_remembers [] calls (orderly_of_idle rfl rfl) nofun
  refine ⟨ho.frames, hr, fun limit => ?_⟩
  have ha := (ho.next limit).2
  rw [call_next]
  generalize e.run.next limit e.stage = result at ha ⊢
  cases ha with
  | presents choices g' r' presentable uniform running offers pending =>
    refine ⟨fun n offer he => ?_, by simp⟩
    cases he
    refine ⟨?_, by simp [Offer.ofChoices], choices, pending, rfl, uniform, presentable.not_lone⟩
    simpa [Offer.ofChoices] using presentable.ne_nil
  | waits => exact ⟨by simp, by simp⟩
  | rests a nothing => rcases nothing with rfl | rfl <;> exact ⟨by simp, by simp⟩
  | passes a g' r' offers pending told failed =>
    refine ⟨fun n offer he => ?_, fun index count he => ?_⟩
    · cases he
      exact absurd rfl (told n offer)
    · cases he
      cases failed _ rfl

def fork : Stage := { library := ({} : Library).load [⟨"Start", "-> Left\n-> Right", ""⟩] }

theorem option_sets_orderly_fork :
    let e := (opening fork "Start").call (.next 9)
    e.1 = .answer (.cue (.options 0 ⟨["Left", "Right"], [1, 2], none⟩)) ∧
    ∃ choices, e.2.run.pending = some ⟨0, choices⟩ ∧ Uniform choices ∧
      choices.map Choice.label = ["Left", "Right"] := by
  intro e
  have hoffer : e.1 = .answer (.cue (.options 0 ⟨["Left", "Right"], [1, 2], none⟩)) := by cbv
  obtain ⟨-, -, choices, hp, ho, hu, -⟩ :=
    ((option_sets_orderly fork "Start" []).2.2 9).1 0 _ hoffer
  exact ⟨hoffer, choices, hp, hu, (congrArg Offer.labels ho).symm⟩

end Encounter

end Dialogue
