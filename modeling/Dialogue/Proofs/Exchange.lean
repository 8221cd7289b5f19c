import Dialogue.Proofs.Moves

/-!
# Exchanges between a host and a run

While it plays a run, a host asks for cues, selects options of any offer it has got,
be it of this run or of an earlier one, and writes variables behind the back of the
run, all in any order and as often as it likes. An exchange is a list of such calls,
with what each of them gives back. A run is met where it begins, on any stage at all,
so nothing is assumed about what the host has done before.
-/

namespace Dialogue

/-- What a host can do while it plays a run. -/
inductive Call where
  /-- Asks the run to go on, for at most so many silent steps. -/
  | next (limit : Nat)
  | select (offer index : Nat)
  | write (name : String) (value : Value)
deriving DecidableEq

inductive Reply where
  | answer (a : Run.Answer)
  | selected
  | refused (e : RunError)
  /-- There is no such offer. -/
  | unknown
  | written
deriving DecidableEq

structure Encounter where
  stage : Stage
  run : Run

namespace Encounter

def opening (stage : Stage) (title : String) : Encounter := ⟨stage, Run.from title⟩

def writing (e : Encounter) (name : String) (value : Value) : Encounter :=
  let session := { e.stage.session with store := e.stage.session.store.insert name value }
  { e with stage := { e.stage with session := session } }

def call (e : Encounter) : Call → Reply × Encounter
  | .next limit =>
    match e.run.next limit e.stage with
    | (answer, stage, run) => (.answer answer, ⟨stage, run⟩)
  | .select offer index =>
    match e.stage.select offer index with
    | none => (.unknown, e)
    | some (.error err) => (.refused err, e)
    | some (.ok stage) => (.selected, { e with stage := stage })
  | .write name value => (.written, e.writing name value)

def after (e : Encounter) : List Call → Encounter
  | [] => e
  | c :: cs => (e.call c).2.after cs

def transcript (e : Encounter) : List Call → List (Call × Reply)
  | [] => []
  | c :: cs => (c, (e.call c).1) :: (e.call c).2.transcript cs

/-- What every call keeps holds behind all calls. -/
theorem after_induction {P : Encounter → Prop} (hcall : ∀ e c, P e → P (e.call c).2)
    {e : Encounter} (h : P e) (cs : List Call) : P (e.after cs) := by
  induction cs generalizing e with
  | nil => exact h
  | cons c cs ih => exact ih (hcall e c h)

theorem call_next (e : Encounter) (limit : Nat) :
    e.call (.next limit) = (.answer (e.run.next limit e.stage).1,
      ⟨(e.run.next limit e.stage).2.1, (e.run.next limit e.stage).2.2⟩) := rfl

/-- A selection touches one offer, or nothing. -/
theorem call_select (e : Encounter) (offer index : Nat) :
    (∃ o, e.stage.offers[offer]? = some o ∧ o.selection = none ∧ index < o.labels.length ∧
      e.call (.select offer index) = (.selected, { e with stage := { e.stage with
        offers := e.stage.offers.set offer { o with selection := some index } } })) ∨
    ((e.call (.select offer index)).1 ≠ .selected ∧ (e.call (.select offer index)).2 = e) := by
  simp only [call, Stage.select]
  cases ho : e.stage.offers[offer]? with
  | none => exact Or.inr ⟨by simp, rfl⟩
  | some o =>
    cases hs : o.selection with
    | some earlier =>
      refine Or.inr ?_
      simp [Offer.select, hs]
    | none =>
      by_cases hi : index < o.labels.length
      · refine Or.inl ⟨o, rfl, hs, hi, ?_⟩
        simp [Offer.select, hs, hi]
      · refine Or.inr ?_
        simp [Offer.select, hs, hi]

end Encounter

end Dialogue
