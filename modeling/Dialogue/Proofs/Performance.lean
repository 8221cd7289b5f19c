import Dialogue.Proofs.Narration

/-!
# Performances

A performance is a run before a host that writes down what it gets to see and
answers every offer at once, from a list of answers. It is watched from call to
call, as the host sees it (`perform`), or from step to step (`stepwise`); looked at
for long enough, both show the same.
-/

namespace Dialogue

def Cue.event : Cue → Event
  | .text content node line => .text content node line
  | .command content node line => .command content node line
  | .options _ offer => .options offer.labels offer.lines
  | .complete title => .complete title

/-- Selects the first option that is in range. -/
def Stage.selectFirst (g : Stage) (offer : Nat) : List Nat → Option (Stage × List Nat)
  | [] => none
  | index :: answers =>
    match g.select offer index with
    | some (.ok g) => some (g, answers)
    | _ => g.selectFirst offer answers

/-- A run before a host. -/
structure Performance where
  stage : Stage
  run : Run
  answers : List Nat
  seen : List (Event × Session) := []

namespace Performance
open Narration (Part Approximates)

def scene (p : Performance) : Scene := ⟨p.stage.session, p.answers, p.seen⟩

def moved (p : Performance) (stage : Stage) (run : Run) : Performance :=
  { p with stage := stage, run := run }

/-- The host takes notice of a cue, and answers an offer. -/
def hear (p : Performance) (cue : Cue) : Ending × Performance :=
  let heard := { p with seen := p.seen ++ [(cue.event, p.stage.session)] }
  match cue with
  | .options number _ =>
    match p.stage.selectFirst number p.answers with
    | some (stage, answers) => (.onward, { heard with stage := stage, answers := answers })
    | none => (.waiting, { heard with answers := [] })
  | _ => (.onward, heard)

/-- Goes on with what follows, unless something has come to its end. -/
def proceed (following : Performance → Part) : Ending × Performance → Part
  | (.onward, p) => following p
  | (ending, p) => (ending, p.scene)

def call (limit : Nat) (p : Performance) : Ending × Performance :=
  match p.run.next limit p.stage with
  | (.cue cue, stage, run) => (p.moved stage run).hear cue
  | (.finished, stage, run) => (.concluded, p.moved stage run)
  | (.failed e, stage, run) => (.failed e, p.moved stage run)
  | (.unsettled, stage, run) => (.cut, p.moved stage run)

def perform (limit : Nat) : (calls : Nat) → Performance → Part
  | 0, p => (.cut, p.scene)
  | calls + 1, p => proceed (perform limit calls) (p.call limit)

def step (p : Performance) : Ending × Performance :=
  match Run.step p.stage p.run with
  | (.silent, stage, run) => (.onward, p.moved stage run)
  | (.cue cue, stage, run) => (p.moved stage run).hear cue
  | (.ended, stage, run) => (.concluded, p.moved stage run)
  | (.waiting, stage, run) => (.failed .unresolvedChoice, p.moved stage run)
  | (.failed e, stage, run) => (.failed e, p.moved stage run)

def stepwise : (steps : Nat) → Performance → Part
  | 0, p => (.cut, p.scene)
  | steps + 1, p => proceed (stepwise steps) p.step

/-! ### Nothing seen is taken back -/

theorem hear_seen (p : Performance) (cue : Cue) : p.seen <+: (p.hear cue).2.seen := by
  have h : p.seen <+: p.seen ++ [(cue.event, p.stage.session)] := ⟨_, rfl⟩
  unfold hear
  simp only
  split
  · split <;> exact h
  · exact h

theorem step_seen (p : Performance) : p.seen <+: p.step.2.seen := by
  unfold step
  split
  · exact List.prefix_rfl
  · rename_i cue stage run _
    exact hear_seen (p.moved stage run) cue
  · exact List.prefix_rfl
  · exact List.prefix_rfl
  · exact List.prefix_rfl

theorem call_seen (limit : Nat) (p : Performance) : p.seen <+: (p.call limit).2.seen := by
  unfold call
  split
  · rename_i cue stage run _
    exact hear_seen (p.moved stage run) cue
  · exact List.prefix_rfl
  · exact List.prefix_rfl
  · exact List.prefix_rfl

theorem proceed_seen (following : Performance → Part) (r : Ending × Performance)
    (h : ∀ p : Performance, p.seen <+: (following p).2.seen) :
    r.2.seen <+: (proceed following r).2.seen := by
  obtain ⟨ending, p⟩ := r
  cases ending with
  | onward => exact h p
  | concluded | failed | waiting | cut => exact List.prefix_rfl

theorem stepwise_seen (steps : Nat) (p : Performance) : p.seen <+: (stepwise steps p).2.seen := by
  induction steps generalizing p with
  | zero => exact List.prefix_rfl
  | succ steps ih => exact (step_seen p).trans (proceed_seen (stepwise steps) p.step ih)

theorem perform_seen (limit calls : Nat) (p : Performance) :
    p.seen <+: (perform limit calls p).2.seen := by
  induction calls generalizing p with
  | zero => exact List.prefix_rfl
  | succ calls ih =>
    exact (call_seen limit p).trans (proceed_seen (perform limit calls) (p.call limit) ih)

theorem approximates_of_seen (scene : Scene) (b : Part) (h : scene.seen <+: b.2.seen) :
    Approximates (.cut, scene) b := by
  unfold Approximates
  rw [if_pos rfl]
  exact h

theorem approximates_refl (a : Part) : Approximates a a := by
  unfold Approximates
  split
  · exact List.prefix_rfl
  · rfl

theorem proceed_approximates (f f' : Performance → Part) (r : Ending × Performance)
    (h : ∀ p, r = (.onward, p) → Approximates (f p) (f' p)) :
    Approximates (proceed f r) (proceed f' r) := by
  obtain ⟨ending, p⟩ := r
  cases ending with
  | onward => exact h p rfl
  | concluded | failed | waiting | cut => exact approximates_refl _

theorem stepwise_mono (steps more : Nat) (p : Performance) :
    Approximates (stepwise steps p) (stepwise (steps + more) p) := by
  induction steps generalizing p with
  | zero => exact approximates_of_seen p.scene _ (stepwise_seen (0 + more) p)
  | succ steps ih =>
    rw [Nat.add_right_comm]
    exact proceed_approximates _ _ p.step fun q _ => ih q

/-! ### Both show the same -/

theorem hear_run (p : Performance) (cue : Cue) : (p.hear cue).2.run = p.run := by
  unfold hear
  simp only
  split
  · split <;> rfl
  · rfl

theorem step_run_done (p : Performance) : p.step.2.run.done = p.run.done := by
  have hk := (Run.step_keeps p.stage p.run).done
  unfold step
  split <;> rename_i h <;> rw [h] at hk
  · exact hk
  · rw [hear_run]
    exact hk
  · exact hk
  · exact hk
  · exact hk

theorem step_of_silent (p : Performance) (stage : Stage) (run : Run)
    (h : Run.step p.stage p.run = (.silent, stage, run)) :
    p.step = (.onward, p.moved stage run) := by
  simp [step, h]

theorem call_zero (p : Performance) (hd : p.run.done = false) : p.call 0 = (.cut, p) := by
  simp [call, Run.next, hd, Run.advance, moved]

theorem call_of_silent (rest : Nat) (p : Performance) (stage : Stage) (run : Run)
    (hd : p.run.done = false) (h : Run.step p.stage p.run = (.silent, stage, run)) :
    p.call (rest + 1) = (p.moved stage run).call rest := by
  have hr : run.done = false := by
    have hk := (Run.step_keeps p.stage p.run).done
    rw [h] at hk
    exact hk.trans hd
  have hn : p.run.next (rest + 1) p.stage = run.next rest stage := by
    simp [Run.next, hd, hr, Run.advance, h]
  simp only [call, hn, moved]

theorem proceed_call_of_not_silent (following : Performance → Part) (rest : Nat) (p : Performance)
    (hd : p.run.done = false) (h : (Run.step p.stage p.run).1 ≠ .silent) :
    proceed following (p.call (rest + 1)) = proceed following p.step := by
  obtain ⟨progress, stage, run, hs⟩ : ∃ progress stage run,
      Run.step p.stage p.run = (progress, stage, run) := ⟨_, _, _, rfl⟩
  rw [hs] at h
  cases progress with
  | silent => exact absurd rfl h
  | cue cue => simp [call, step, Run.next, hd, Run.advance, hs]
  | ended => simp [call, step, Run.next, hd, Run.advance, hs, proceed, scene, moved]
  | waiting => simp [call, step, Run.next, hd, Run.advance, hs]
  | failed e => simp [call, step, Run.next, hd, Run.advance, hs, proceed, scene, moved]

/-- Calls that may take at least so many steps show at least what the steps show. -/
theorem stepwise_approximates_calls (limit steps calls rest : Nat) (p : Performance)
    (hd : p.run.done = false) (hr : steps ≤ rest) (hl : steps ≤ limit) (hc : steps ≤ calls + 1) :
    Approximates (stepwise steps p) (proceed (perform limit calls) (p.call rest)) := by
  induction steps generalizing calls rest p with
  | zero =>
    exact approximates_of_seen p.scene _
      ((call_seen rest p).trans (proceed_seen _ (p.call rest) (perform_seen limit calls)))
  | succ steps ih =>
    obtain ⟨rest, rfl⟩ : ∃ k, rest = k + 1 := ⟨rest - 1, by omega⟩
    by_cases hs : (Run.step p.stage p.run).1 = .silent
    · obtain ⟨stage, run, he⟩ : ∃ stage run, Run.step p.stage p.run = (.silent, stage, run) :=
        ⟨_, _, by rw [← hs]⟩
      have hq : (p.moved stage run).run.done = false := by
        have hk := step_run_done p
        rw [step_of_silent p stage run he] at hk
        exact hk.trans hd
      rw [stepwise, step_of_silent p stage run he, call_of_silent rest p stage run hd he]
      exact ih calls rest (p.moved stage run) hq (by omega) (by omega) (by omega)
    · rw [proceed_call_of_not_silent _ rest p hd hs, stepwise]
      refine proceed_approximates _ _ p.step fun q hq => ?_
      have hqd : q.run.done = false := by
        have hk := step_run_done p
        rw [hq] at hk
        exact hk.trans hd
      cases calls with
      | zero =>
        obtain rfl : steps = 0 := by omega
        exact approximates_refl _
      | succ calls => exact ih calls limit q hqd (by omega) (by omega) (by omega)

/-- Steps show what as many calls show that may take as many steps each. -/
theorem stepwise_approximates_perform (steps : Nat) (p : Performance) (hd : p.run.done = false) :
    Approximates (stepwise steps p) (perform steps steps p) := by
  cases steps with
  | zero => exact approximates_refl _
  | succ steps =>
    exact stepwise_approximates_calls (steps + 1) (steps + 1) steps (steps + 1) p hd
      (by omega) (by omega) (by omega)

theorem call_approximates_stepwise (following : Performance → Part)
    (hf : ∀ q : Performance, q.run.done = false →
      ∃ steps, Approximates (following q) (stepwise steps q))
    (rest : Nat) (p : Performance) (hd : p.run.done = false) :
    ∃ steps, Approximates (proceed following (p.call rest)) (stepwise steps p) := by
  induction rest generalizing p with
  | zero =>
    rw [call_zero p hd]
    exact ⟨0, approximates_refl _⟩
  | succ rest ih =>
    have hk := step_run_done p
    by_cases hs : (Run.step p.stage p.run).1 = .silent
    · obtain ⟨stage, run, he⟩ : ∃ stage run, Run.step p.stage p.run = (.silent, stage, run) :=
        ⟨_, _, by rw [← hs]⟩
      rw [step_of_silent p stage run he] at hk
      obtain ⟨steps, ha⟩ := ih (p.moved stage run) (hk.trans hd)
      refine ⟨steps + 1, ?_⟩
      rw [call_of_silent rest p stage run hd he, stepwise, step_of_silent p stage run he]
      exact ha
    · rw [proceed_call_of_not_silent following rest p hd hs]
      by_cases ho : p.step.1 = .onward
      · obtain ⟨q, he⟩ : ∃ q, p.step = (.onward, q) := ⟨_, by rw [← ho]⟩
        rw [he] at hk
        obtain ⟨steps, ha⟩ := hf q (hk.trans hd)
        refine ⟨steps + 1, ?_⟩
        rw [stepwise, he]
        exact ha
      · refine ⟨1, proceed_approximates following (stepwise 0) p.step fun q hq => ?_⟩
        rw [hq] at ho
        exact absurd rfl ho

/-- Calls show nothing that steps do not show. -/
theorem perform_approximates_stepwise (limit calls : Nat) (p : Performance)
    (hd : p.run.done = false) :
    ∃ steps, Approximates (perform limit calls p) (stepwise steps p) := by
  induction calls generalizing p with
  | zero => exact ⟨0, approximates_refl _⟩
  | succ calls ih => exact call_approximates_stepwise (perform limit calls) ih limit p hd

end Performance

end Dialogue
