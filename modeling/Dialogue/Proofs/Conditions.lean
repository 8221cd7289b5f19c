import Dialogue.Proofs.Effects

/-!
# What evaluation changes and what it depends on

An evaluation notes its accesses in the journal and lets host functions count their
calls. Variables, the nodes entered and the registry stay as they are
(`Expr.evaluate_alike`). Without calls of the host its result depends on nothing
else (`Expr.evaluate_congr`), so a condition that held once holds again as long as
these are the same. What fails in it is no fault of a selection.
-/

namespace Dialogue

def Function.isHost : Function → Bool
  | .visited => false
  | .host _ _ => true

namespace Session

/-- Whether a name is a function of the host, if it is a function at all. -/
def isHost? (s : Session) (name : String) : Option Bool :=
  (s.functions.table.get? name).map Function.isHost

/-- Two sessions with the same variables, the same nodes entered and the same functions, up to
the calls that these have had. -/
structure Alike (s t : Session) : Prop where
  store : s.store = t.store
  visited : s.visited = t.visited
  functions : ∀ name, s.isHost? name = t.isHost? name

variable {s t u : Session}

theorem Alike.refl (s : Session) : s.Alike s := ⟨rfl, rfl, fun _ => rfl⟩

theorem Alike.symm (h : s.Alike t) : t.Alike s :=
  ⟨h.store.symm, h.visited.symm, fun name => (h.functions name).symm⟩

theorem Alike.trans (h : s.Alike t) (h' : t.Alike u) : s.Alike u :=
  ⟨h.store.trans h'.store, h.visited.trans h'.visited,
    fun name => (h.functions name).trans (h'.functions name)⟩

theorem Alike.behind {s' t' : Session} (h : s.Alike t) (hs : s.Alike s') (ht : t.Alike t') :
    s'.Alike t' :=
  hs.symm.trans (h.trans ht)

theorem read_alike (s : Session) (name : String) : s.Alike (s.read name).2 :=
  ⟨rfl, rfl, fun _ => rfl⟩

theorem call_alike (s : Session) (name : String) (args : List Value) (line : Nat) :
    s.Alike (s.call name args line).2 := by
  unfold call
  split
  · split <;> exact Alike.refl s
  · rename_i function earlier hf
    refine ⟨rfl, rfl, fun other => ?_⟩
    simp only [isHost?, note]
    by_cases ho : other = name
    · rw [ho, Table.get?_insert_self, hf]
      rfl
    · rw [Table.get?_insert_of_ne _ name other _ ho]
  · exact Alike.refl s

theorem read_congr (h : s.Alike t) (name : String) : (s.read name).1 = (t.read name).1 := by
  simp only [read, h.store]

/-- A function that is not the host's gives the same in sessions alike. -/
theorem call_congr (h : s.Alike t) {name : String} (hn : s.isHost? name ≠ some true)
    (args : List Value) (line : Nat) : (s.call name args line).1 = (t.call name args line).1 := by
  have hf := h.functions name
  unfold isHost? at hn hf
  unfold call
  cases hs : s.functions.table.get? name with
  | none =>
    rw [hs] at hf
    rw [Option.map_eq_none_iff.1 hf.symm]
  | some function =>
    cases function with
    | host function earlier =>
      rw [hs] at hn
      exact absurd rfl hn
    | visited =>
      rw [hs] at hf
      obtain ⟨other, ho, hk⟩ := Option.map_eq_some_iff.1 hf.symm
      cases other with
      | host function earlier => cases hk
      | visited =>
        rw [ho]
        match args with
        | [] => rfl
        | [title] => simp only [hasVisited, h.visited]
        | _ :: _ :: _ => rfl

theorem kept_alike : Kept Alike := ⟨Alike.refl, Alike.trans, read_alike, call_alike⟩

/-- Sessions alike are told apart by the functions of the host only. -/
theorem tracks_alike (s : Session) :
    Tracks (fun t u => s.Alike t ∧ t.Alike u) fun name => s.isHost? name ≠ some true where
  read := by
    rintro t u ⟨hs, h⟩ name
    exact ⟨read_congr h name, hs.trans (t.read_alike name),
      h.behind (t.read_alike name) (u.read_alike name)⟩
  call := by
    rintro t u ⟨hs, h⟩ name hn args line
    rw [hs.functions name] at hn
    exact ⟨call_congr h hn args line, hs.trans (t.call_alike name args line),
      h.behind (t.call_alike name args line) (u.call_alike name args line)⟩

end Session

/-! ### Evaluations -/

namespace Expr

open Session (Alike)

theorem evaluate_alike (e : Expr) (s : Session) : s.Alike (e.evaluate s).2 :=
  e.evaluate_kept Session.kept_alike s

/-- No function of the host is called, whatever the evaluation comes to. -/
def Hostless (s : Session) (e : Expr) : Prop :=
  ∀ name, Token.name name ∈ e.leaves → s.isHost? name ≠ some true

theorem evaluate_congr (e : Expr) {s t : Session} (hh : e.Hostless s) (h : s.Alike t) :
    (e.evaluate s).1 = (e.evaluate t).1 :=
  (e.evaluate_tracks (Session.tracks_alike s) hh ⟨.refl s, h⟩).result

end Expr

def ConditionHostless (s : Session) : Option Expr → Prop
  | none => True
  | some e => e.Hostless s

theorem Session.holds_alike (s : Session) (condition : Option Expr) :
    s.Alike (s.holds condition).2 := s.holds_kept kept_alike condition

theorem Session.holds_congr {s t : Session} (h : s.Alike t) {condition : Option Expr}
    (hc : ConditionHostless s condition) : (s.holds condition).1 = (t.holds condition).1 := by
  cases condition with
  | none => rfl
  | some e =>
    have he := e.evaluate_congr hc h
    simp only [holds]
    split <;> split <;> simp_all

def RunError.isSelection : RunError → Bool
  | .invalidSelection _ _ => true
  | .alreadySelected _ => true
  | .unresolvedChoice => true
  | _ => false

theorem BinaryOp.apply_error {op : BinaryOp} {a b : Value} {line : Nat} {err : RunError}
    (h : op.apply a b line = .error err) : err.isSelection = false := by
  unfold apply at h
  split at h
  · cases h
  · cases h
    rfl

theorem UnaryOp.apply_error {op : UnaryOp} {v : Value} {line : Nat} {err : RunError}
    (h : op.apply v line = .error err) : err.isSelection = false := by
  unfold apply at h
  split at h <;> cases h
  rfl

theorem Session.call_error {s : Session} {name : String} {args : List Value} {line : Nat}
    {err : RunError} (h : (s.call name args line).1 = .error err) : err.isSelection = false := by
  unfold call at h
  split at h
  · split at h <;> cases h
    rfl
  · cases h
  · cases h
    rfl

namespace Expr

open Session (error_of_andThen)

mutual

theorem evaluate_error : ∀ (e : Expr) (s : Session) (err : RunError),
    (e.evaluate s).1 = .error err → err.isSelection = false
  | .literal _ _, _, _, h => by cases h
  | .var line name, s, _, h => by
    rw [evaluate_var] at h
    cases hr : (s.read name).1 with
    | none =>
      rw [hr] at h
      cases h
      rfl
    | some v =>
      rw [hr] at h
      cases h
  | .call line name args, s, err, h => by
    rw [evaluate_call] at h
    obtain h | ⟨values, s', h⟩ := error_of_andThen h
    · exact evaluateAll_error args s err h
    · exact Session.call_error h
  | .unary line op operand, s, err, h => by
    rw [evaluate_unary] at h
    obtain h | ⟨v, s', h⟩ := error_of_andThen h
    · exact evaluate_error operand s err h
    · exact UnaryOp.apply_error h
  | .binary line op left right, s, err, h => by
    rw [evaluate_binary] at h
    obtain h | ⟨a, s', h⟩ := error_of_andThen h
    · exact evaluate_error left s err h
    · cases hd : op.decided? a with
      | some v =>
        rw [hd] at h
        cases h
      | none =>
        rw [hd] at h
        obtain h | ⟨b, s'', h⟩ := error_of_andThen h
        · exact evaluate_error right s' err h
        · exact BinaryOp.apply_error h

theorem evaluateAll_error : ∀ (es : List Expr) (s : Session) (err : RunError),
    (evaluateAll es s).1 = .error err → err.isSelection = false
  | [], _, _, h => by cases h
  | e :: es, s, err, h => by
    rw [evaluateAll_cons] at h
    obtain h | ⟨v, s', h⟩ := error_of_andThen h
    · exact evaluate_error e s err h
    · obtain h | ⟨vs, s'', h⟩ := error_of_andThen h
      · exact evaluateAll_error es s' err h
      · cases h

end

end Expr

namespace Session

theorem holds_error {s : Session} {condition : Option Expr} {err : RunError}
    (h : (s.holds condition).1 = .error err) : err.isSelection = false := by
  cases condition with
  | none => cases h
  | some e =>
    simp only [holds] at h
    split at h
    · cases h
    · rename_i he
      cases h
      exact e.evaluate_error s _ (by rw [he])

theorem assign_error {s : Session} {line : Nat} {target : String} {op : AssignOp} {value : Expr}
    {err : RunError} (h : (s.assign line target op value).1 = .error err) :
    err.isSelection = false := by
  unfold assign at h
  split at h
  · rename_i he
    cases h
    exact value.evaluate_error s _ (by rw [he])
  · simp only at h
    split at h
    · rename_i hc
      cases h
      unfold AssignOp.combine at hc
      split at hc
      · cases hc
      · cases hc
        rfl
      · exact BinaryOp.apply_error hc
    · cases h

end Session

end Dialogue
