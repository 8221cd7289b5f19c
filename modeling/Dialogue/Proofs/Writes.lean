import Dialogue.Proofs.Moves

/-!
# What a call writes

Only an assignment writes a variable, and only when nothing fails in it. Conditions,
the values of assignments and calls of the host note what they read and call, and
write nothing (`Session.kept_writes`). So a step writes what the assignment it
carries out comes to (`Run.step_writes`), and a call of the host the pairs of all its
assignments in their order.
-/

namespace Dialogue

def Access.write? : Access → Option (String × Value)
  | .write name value => some (name, value)
  | _ => none

namespace Session

def storing (store : Table Value) (writes : List (String × Value)) : Table Value :=
  writes.foldl (fun store pair => store.insert pair.1 pair.2) store

/-- The second session is behind these writes of the first, and the journal has no others. -/
structure Writes (s : Session) (writes : List (String × Value)) (t : Session) : Prop where
  store : t.store = storing s.store writes
  journal : ∃ accesses, t.journal = s.journal ++ accesses ∧
    accesses.filterMap Access.write? = writes

variable {s t u : Session}

theorem Writes.refl (s : Session) : s.Writes [] s := ⟨rfl, [], by simp, rfl⟩

theorem Writes.trans {writes later : List (String × Value)} (h : s.Writes writes t)
    (h' : t.Writes later u) : s.Writes (writes ++ later) u := by
  obtain ⟨accesses, ha, rfl⟩ := h.journal
  obtain ⟨others, ho, rfl⟩ := h'.journal
  refine ⟨?_, accesses ++ others, ?_, List.filterMap_append⟩
  · rw [h'.store, h.store, storing, storing, storing, List.foldl_append]
  · rw [ho, ha, List.append_assoc]

theorem writes_note (s : Session) {access : Access} (h : access.write? = none) :
    s.Writes [] (s.note access) :=
  ⟨rfl, [access], rfl, by simp [h]⟩

theorem read_writes (s : Session) (name : String) : s.Writes [] (s.read name).2 :=
  s.writes_note rfl

theorem write_writes (s : Session) (name : String) (value : Value) :
    s.Writes [(name, value)] (s.write name value) :=
  ⟨rfl, [.write name value], rfl, rfl⟩

theorem call_writes (s : Session) (name : String) (args : List Value) (line : Nat) :
    s.Writes [] (s.call name args line).2 := by
  unfold call
  split
  · split <;> exact Writes.refl s
  · exact ⟨rfl, [.call name args], rfl, rfl⟩
  · exact Writes.refl s

theorem kept_writes : Kept (Writes · []) := ⟨Writes.refl, Writes.trans, read_writes, call_writes⟩

theorem markVisited_writes (s : Session) (title : String) : s.Writes [] (s.markVisited title) := by
  unfold markVisited
  split
  · exact Writes.refl s
  · exact ⟨rfl, [], by simp, rfl⟩

end Session

theorem Session.holds_writes {s t : Session} {condition : Option Expr}
    {result : Except RunError Bool} (h : s.holds condition = (result, t)) : s.Writes [] t := by
  have hw := s.holds_kept kept_writes condition
  rwa [h] at hw

def Session.outcome? (s : Session) (line : Nat) (target : String) (op : AssignOp) (value : Expr) :
    Option Value :=
  (value.evaluate s).1.toOption.bind fun new =>
    (op.combine target (s.store.get? target) new line).toOption

/-- An assignment writes what it comes to, or fails and writes nothing. -/
theorem Session.assign_writes (s : Session) (line : Nat) (target : String) (op : AssignOp)
    (value : Expr) :
    (∃ v, s.outcome? line target op value = some v ∧ (s.assign line target op value).1 = .ok () ∧
      s.Writes [(target, v)] (s.assign line target op value).2) ∨
    s.outcome? line target op value = none ∧
      (∃ e, (s.assign line target op value).1 = .error e) ∧
      s.Writes [] (s.assign line target op value).2 := by
  have hw := value.evaluate_kept kept_writes s
  have hs := (value.evaluate_alike s).store
  obtain ⟨result, s', he⟩ : ∃ result s', value.evaluate s = (result, s') := ⟨_, _, rfl⟩
  rw [he] at hw hs
  simp only [outcome?, assign, he]
  cases result with
  | error e => exact Or.inr ⟨rfl, ⟨e, rfl⟩, hw⟩
  | ok new =>
    have hr := hw.trans (s'.read_writes target)
    simp only [read] at hr ⊢
    rw [hs]
    cases hc : op.combine target (s'.store.get? target) new line with
    | error e => exact Or.inr ⟨by simp [hc, Except.toOption], ⟨e, rfl⟩, hr⟩
    | ok v =>
      exact Or.inl ⟨v, by simp [hc, Except.toOption], rfl, hr.trans (write_writes _ target v)⟩

/-- The variable that a statement sets when it is carried out, with its value. -/
def Statement.sets? (s : Session) : Statement → Option (String × Value)
  | .assignment line target op value => (s.outcome? line target op value).map (target, ·)
  | _ => none

namespace Run

/-! ### Steps -/

/-- The statement that a step carries out: no choice, and nothing waits in front of it. -/
def executes? (r : Run) : Option Statement :=
  match r.start, r.pending, r.frames with
  | none, none, frame :: _ =>
    if frame.choices.isEmpty then frame.rest.head?.filter (·.choice?.isNone) else none
  | _, _, _ => none

theorem executes?_of_playing {r : Run} {frame : Frame} {below : List Frame}
    (h : r.Playing frame below) : r.executes? =
      if frame.choices.isEmpty then frame.rest.head?.filter (·.choice?.isNone) else none := by
  simp only [executes?, h.start, h.pending, h.frames]

def sets? (g : Stage) (r : Run) : Option (String × Value) :=
  r.executes?.bind (Statement.sets? g.session)

theorem enterNode_writes (g : Stage) (r : Run) (title : String) :
    g.session.Writes [] (enterNode g r title).2.1.session := by
  unfold enterNode
  split
  · exact Session.Writes.refl _
  · exact g.session.markVisited_writes title

theorem follow_writes (g : Stage) (r : Run) (choice : Choice) :
    g.session.Writes [] (follow g r choice).2.1.session := by
  cases choice with
  | link line destination => exact enterNode_writes g r destination
  | option line label destination => exact enterNode_writes g r destination
  | shortcut line label body => exact Session.Writes.refl _

theorem present_writes (g : Stage) (r : Run) (choices : List Choice) :
    g.session.Writes [] (present g r choices).2.1.session := by
  unfold present
  split
  · exact Session.Writes.refl _
  · exact follow_writes g r _
  · exact Session.Writes.refl _

theorem execute_writes (g : Stage) (r : Run) (s : Statement) :
    g.session.Writes (s.sets? g.session).toList (execute g r s).2.1.session := by
  cases s with
  | command line content =>
    simp only [execute]
    split <;> exact Session.Writes.refl _
  | assignment line target op value =>
    unfold execute
    simp only [Statement.sets?]
    obtain ⟨v, ho, hr, hw⟩ | ⟨ho, ⟨e, hr⟩, hw⟩ := g.session.assign_writes line target op value
    all_goals
      rw [ho]
      split <;> rename_i ha <;> rw [ha] at hw <;> exact hw
  | conditional line branches =>
    have hb := chooseBranch_kept Session.kept_writes branches g.session
    unfold execute
    simp only
    split <;> rename_i he <;> rw [he] at hb <;> exact hb
  | _ => exact Session.Writes.refl _

/-- A step carries out a statement, or writes nothing. -/
theorem step_executes (g : Stage) (r : Run) :
    (r.executes? = none ∧ g.session.Writes [] (step g r).2.1.session) ∨
      ∃ s r', r.executes? = some s ∧ step g r = execute g r' s := by
  have hm := step_move g r
  revert hm
  generalize step g r = outcome
  intro hm
  cases hm with
  | enter title start =>
    exact Or.inl ⟨by simp [executes?, start], enterNode_writes g _ title⟩
  | wait p start pending =>
    exact Or.inl ⟨by simp [executes?, start, pending], Session.Writes.refl _⟩
  | stray p index start pending =>
    exact Or.inl ⟨by simp [executes?, start, pending], Session.Writes.refl _⟩
  | resume p index choice start pending =>
    exact Or.inl ⟨by simp [executes?, start, pending], follow_writes g _ choice⟩
  | finish start pending frames =>
    exact Or.inl ⟨by simp [executes?, start, pending, frames], Session.Writes.refl _⟩
  | leave frame below playing rest choices =>
    exact Or.inl ⟨by simp [executes?_of_playing playing, rest], Session.Writes.refl _⟩
  | flush frame below playing choices =>
    exact Or.inl ⟨by simp [executes?_of_playing playing, choices], present_writes g _ _⟩
  | execute frame below s rest playing here choices plain =>
    exact Or.inr ⟨s, _, by simp [executes?_of_playing playing, here, choices, plain], rfl⟩
  | fail frame below s rest choice condition e session playing here found holds =>
    exact Or.inl ⟨by simp [executes?_of_playing playing, here, found], Session.holds_writes holds⟩
  | drop frame below s rest choice condition session playing here found holds =>
    exact Or.inl ⟨by simp [executes?_of_playing playing, here, found], Session.holds_writes holds⟩
  | gather frame below s rest choice condition session playing here found holds =>
    exact Or.inl ⟨by simp [executes?_of_playing playing, here, found], Session.holds_writes holds⟩
  | change frame below s rest choice condition session playing here found holds =>
    exact Or.inl ⟨by simp [executes?_of_playing playing, here, found],
      (Session.holds_writes holds).trans (present_writes { g with session := session } _ _)⟩

theorem step_writes (g : Stage) (r : Run) :
    g.session.Writes (sets? g r).toList (step g r).2.1.session := by
  obtain ⟨he, hw⟩ | ⟨s, r', he, hr⟩ := step_executes g r
  · simpa [sets?, he] using hw
  · rw [sets?, he, hr]
    exact execute_writes g r' s

theorem step_of_assignment {g : Stage} {r : Run} {line : Nat} {target : String} {op : AssignOp}
    {value : Expr} (h : r.executes? = some (.assignment line target op value)) :
    (∃ v, sets? g r = some (target, v) ∧ (step g r).1 = .silent) ∨
      sets? g r = none ∧ ∃ e, (step g r).1 = .failed e := by
  obtain ⟨he, -⟩ | ⟨s, r', he, hr⟩ := step_executes g r
  · simp [he] at h
  obtain rfl : s = _ := Option.some.inj (he.symm.trans h)
  rw [hr, sets?, h, Option.bind_some, Statement.sets?]
  simp only [execute]
  obtain ⟨v, ho, ha, -⟩ | ⟨ho, ⟨e, ha⟩, -⟩ := g.session.assign_writes line target op value
  · refine Or.inl ⟨v, by rw [ho, Option.map_some], ?_⟩
    split
    · rename_i he
      rw [he] at ha
      cases ha
    · rfl
  · refine Or.inr ⟨by rw [ho, Option.map_none], ?_⟩
    split
    · exact ⟨_, rfl⟩
    · rename_i he
      rw [he] at ha
      cases ha

theorem sets?_of_not_silent {g : Stage} {r : Run} (h : (step g r).1 ≠ .silent) :
    sets? g r = none := by
  cases he : r.executes? with
  | none => rw [sets?, he, Option.bind_none]
  | some s =>
    cases s with
    | assignment line target op value =>
      obtain ⟨v, -, hs⟩ | ⟨hn, -⟩ := step_of_assignment (g := g) he
      · exact absurd hs h
      · exact hn
    | _ => rw [sets?, he]; rfl

def executed : (limit : Nat) → Stage → Run → List (Session × Statement)
  | 0, _, _ => []
  | limit + 1, g, r =>
    (r.executes?.map (g.session, ·)).toList ++
      match step g r with
      | (.silent, g, r) => executed limit g r
      | _ => []

def written (limit : Nat) (g : Stage) (r : Run) : List (String × Value) :=
  if r.done then [] else (executed limit g r).filterMap fun (s, statement) => statement.sets? s

theorem advance_writes (limit : Nat) (g : Stage) (r : Run) :
    g.session.Writes ((executed limit g r).filterMap fun (s, statement) => statement.sets? s)
      (advance limit g r).2.1.session := by
  induction limit generalizing g r with
  | zero => exact Session.Writes.refl _
  | succ limit ih =>
    have hs := step_writes g r
    have he : (r.executes?.map (g.session, ·)).toList.filterMap
        (fun (s, statement) => statement.sets? s) = (sets? g r).toList := by
      unfold sets?
      cases r.executes? with
      | none => rfl
      | some s => cases hs : s.sets? g.session <;> simp [hs]
    -- What the first step writes comes first; the steps behind it go on from there.
    rw [advance, executed, List.filterMap_append, he]
    revert hs
    generalize step g r = outcome
    intro hs
    obtain ⟨progress, g', r'⟩ := outcome
    cases progress with
    | silent => exact hs.trans (ih g' r')
    | _ => simpa using hs

theorem advance_stops (limit : Nat) (g : Stage) (r : Run) :
    (advance limit g r).1 = .silent ∨ ∃ k g' r', k < limit ∧ advance k g r = (.silent, g', r') ∧
      (step g' r').1 ≠ .silent ∧ advance limit g r = step g' r' := by
  induction limit generalizing g r with
  | zero => exact Or.inl rfl
  | succ limit ih =>
    by_cases hs : (step g r).1 = .silent
    · obtain ⟨g₁, r₁, he⟩ : ∃ g₁ r₁, step g r = (.silent, g₁, r₁) := ⟨_, _, by rw [← hs]⟩
      have ha : ∀ k, advance (k + 1) g r = advance k g₁ r₁ := fun k => by simp only [advance, he]
      rw [ha]
      obtain h | ⟨k, g', r', hk, hp, hr⟩ := ih g₁ r₁
      · exact Or.inl h
      · exact Or.inr ⟨k + 1, g', r', Nat.succ_lt_succ hk, (ha k).trans hp, hr⟩
    · refine Or.inr ⟨0, g, r, Nat.succ_pos limit, rfl, hs, ?_⟩
      unfold advance
      split
      · rename_i he
        exact absurd (by rw [he]) hs
      · rfl

theorem progress_of_report {outcome : Outcome} {e : RunError} (h : (report outcome).1 = .failed e) :
    outcome.1 ≠ .silent := by
  obtain ⟨progress, g, r⟩ := outcome
  rintro rfl
  cases h

/-- A call that fails does so in its last step, and that step writes nothing. -/
theorem next_of_failed {limit : Nat} {g : Stage} {r : Run} {e : RunError}
    (h : (next limit g r).1 = .failed e) :
    ∃ k g' r', k < limit ∧ advance k g r = (.silent, g', r') ∧
      next limit g r = report (step g' r') ∧ g'.session.Writes [] (next limit g r).2.1.session := by
  cases hd : r.done with
  | true =>
    rw [next_of_done hd] at h
    cases h
  | false =>
    rw [next_of_not_done hd] at h ⊢
    obtain hs | ⟨k, g', r', hk, hp, hn, ha⟩ := advance_stops limit g r
    · exact absurd hs (progress_of_report h)
    · have hw := step_writes g' r'
      rw [sets?_of_not_silent hn] at hw
      refine ⟨k, g', r', hk, hp, by rw [ha], ?_⟩
      rw [report_stage, ha]
      exact hw

/-- The variables behind a call of the host are those in front of it with what its assignments
set, in the order in which they are carried out, whatever the call comes to. An assignment sets
its variable unless it fails. Expressions, conditions and calls of functions write nothing, and
neither does the step that fails. -/
theorem writes_are_assignments (limit : Nat) (g : Stage) (r : Run) :
    g.session.Writes (written limit g r) (next limit g r).2.1.session ∧
    (∀ e, (next limit g r).1 = .failed e → ∃ k g' r', k < limit ∧
      advance k g r = (.silent, g', r') ∧ next limit g r = report (step g' r') ∧
      g'.session.Writes [] (next limit g r).2.1.session) ∧
    (∀ (g : Stage) (r : Run) (line : Nat) (target : String) (op : AssignOp) (value : Expr),
      r.executes? = some (.assignment line target op value) →
        (∃ v, sets? g r = some (target, v) ∧ (step g r).1 = .silent) ∨
          sets? g r = none ∧ ∃ e, (step g r).1 = .failed e) ∧
    (∀ (s : Session) (e : Expr), s.Writes [] (e.evaluate s).2) ∧
    (∀ (s : Session) (condition : Option Expr), s.Writes [] (s.holds condition).2) ∧
    (∀ (s : Session) (branches : List Branch), s.Writes [] (chooseBranch s branches).2) ∧
    ∀ (s : Session) (name : String) (args : List Value) (line : Nat),
      s.Writes [] (s.call name args line).2 := by
  refine ⟨?_, fun e => next_of_failed, fun g r line target op value => step_of_assignment,
    fun s e => e.evaluate_kept Session.kept_writes s, fun s condition => Session.holds_writes rfl,
    fun s branches => chooseBranch_kept Session.kept_writes branches s, Session.call_writes⟩
  unfold written
  cases hd : r.done with
  | true =>
    rw [next_of_done hd]
    exact Session.Writes.refl _
  | false =>
    rw [next_of_not_done hd, report_stage]
    exact advance_writes limit g r

end Run

end Dialogue
