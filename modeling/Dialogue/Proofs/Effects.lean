import Dialogue.Proofs.Spelling
import Dialogue.Session.Evaluation

/-!
# What an evaluation does to a session

An evaluation reads variables and calls functions, one after another, and touches the
session in no other way. So sessions that no read and no call tells apart are not told
apart by an evaluation (`Expr.evaluate_tracks`), and what each read and each call keeps
is kept by a whole evaluation (`Expr.evaluate_kept`).
-/

namespace Dialogue

namespace Session

variable {R : Session → Session → Prop}

/-- Goes on with a result that is no error. -/
def andThen {α β : Type} (x : Except RunError α × Session)
    (f : α → Session → Except RunError β × Session) : Except RunError β × Session :=
  match x with
  | (.ok a, s) => f a s
  | (.error e, s) => (.error e, s)

theorem error_of_andThen {α β : Type} {x : Except RunError α × Session}
    {f : α → Session → Except RunError β × Session} {e : RunError}
    (h : (andThen x f).1 = .error e) : x.1 = .error e ∨ ∃ a s, (f a s).1 = .error e := by
  obtain ⟨e' | a, s⟩ := x
  · obtain rfl : e' = e := Except.error.inj h
    exact Or.inl rfl
  · exact Or.inr ⟨a, s, h⟩

structure SameResult (R : Session → Session → Prop) {α : Type} (x y : α × Session) : Prop where
  result : x.1 = y.1
  session : R x.2 y.2

theorem SameResult.andThen {α β : Type} {x y : Except RunError α × Session}
    {f : α → Session → Except RunError β × Session} (h : SameResult R x y)
    (hf : ∀ a {s t : Session}, R s t → SameResult R (f a s) (f a t)) :
    SameResult R (andThen x f) (andThen y f) := by
  obtain ⟨result, s⟩ := x
  obtain ⟨result', t⟩ := y
  obtain ⟨rfl, hrelated⟩ := h
  cases result with
  | error e => exact ⟨rfl, hrelated⟩
  | ok a => exact hf a hrelated

/-- Related sessions are not told apart by a read, nor by a call of one of the functions. -/
structure Tracks (R : Session → Session → Prop) (functions : String → Prop) : Prop where
  read {s t : Session} (h : R s t) (name : String) : SameResult R (s.read name) (t.read name)
  call {s t : Session} (h : R s t) {name : String} (hn : functions name) (args : List Value)
    (line : Nat) : SameResult R (s.call name args line) (t.call name args line)

/-- The session behind reads and calls is always related to the one in front of them. -/
structure Kept (R : Session → Session → Prop) : Prop where
  refl (s : Session) : R s s
  trans {s t u : Session} (h : R s t) (h' : R t u) : R s u
  read (s : Session) (name : String) : R s (s.read name).2
  call (s : Session) (name : String) (args : List Value) (line : Nat) :
    R s (s.call name args line).2

/-- A session is not told apart from itself, and stays related to the one at the beginning. -/
theorem Kept.tracks (hR : Kept R) (s : Session) :
    Tracks (fun t u => t = u ∧ R s t) fun _ => True where
  read := by
    rintro t _ ⟨rfl, h⟩ name
    exact ⟨rfl, rfl, hR.trans h (hR.read t name)⟩
  call := by
    rintro t _ ⟨rfl, h⟩ name - args line
    exact ⟨rfl, rfl, hR.trans h (hR.call t name args line)⟩

end Session

namespace Expr

open Session (SameResult Tracks Kept andThen)

section

variable (line : Nat) (s : Session)

theorem evaluate_var (name : String) :
    (Expr.var line name).evaluate s =
      ((s.read name).1.elim (.error (.unsetVariable name line)) .ok, (s.read name).2) := by
  rw [evaluate, Session.read]
  cases s.store.get? name <;> rfl

theorem evaluate_call (name : String) (args : List Expr) :
    (Expr.call line name args).evaluate s =
      andThen (evaluateAll args s) fun values s => s.call name values line := by
  rw [evaluate]
  obtain ⟨values | values, s'⟩ := evaluateAll args s <;> rfl

theorem evaluate_unary (op : UnaryOp) (operand : Expr) :
    (Expr.unary line op operand).evaluate s =
      andThen (operand.evaluate s) fun v s => (op.apply v line, s) := by
  rw [evaluate]
  obtain ⟨v | v, s'⟩ := operand.evaluate s <;> rfl

theorem evaluate_binary (op : BinaryOp) (left right : Expr) :
    (Expr.binary line op left right).evaluate s = andThen (left.evaluate s) fun a s =>
      match op.decided? a with
      | some v => (.ok v, s)
      | none => andThen (right.evaluate s) fun b s => (op.apply a b line, s) := by
  rw [evaluate]
  obtain ⟨a | a, s'⟩ := left.evaluate s
  · rfl
  · simp only [andThen]
    cases op.decided? a with
    | some v => rfl
    | none => obtain ⟨b | b, s''⟩ := right.evaluate s' <;> rfl

theorem evaluateAll_cons (e : Expr) (es : List Expr) :
    evaluateAll (e :: es) s = andThen (e.evaluate s) fun v s =>
      andThen (evaluateAll es s) fun vs s => (.ok (v :: vs), s) := by
  rw [evaluateAll]
  obtain ⟨v | v, s'⟩ := e.evaluate s
  · rfl
  · simp only [andThen]
    obtain ⟨vs | vs, s''⟩ := evaluateAll es s' <;> rfl

end

section

variable {R : Session → Session → Prop} {functions : String → Prop}

mutual

theorem evaluate_tracks (hR : Tracks R functions) : ∀ (e : Expr) {s t : Session},
    (∀ name, Token.name name ∈ e.leaves → functions name) → R s t →
    SameResult R (e.evaluate s) (e.evaluate t)
  | .literal _ _, _, _, _, h => ⟨rfl, h⟩
  | .var line name, s, t, _, h => by
    have hread := hR.read h name
    rw [evaluate_var, evaluate_var, hread.result]
    exact ⟨rfl, hread.session⟩
  | .call line name args, s, t, hf, h => by
    have hargs := evaluateAll_tracks hR args (fun other ho => hf other (List.mem_cons_of_mem _ ho)) h
    rw [evaluate_call, evaluate_call]
    exact hargs.andThen fun values _ _ h => hR.call h (hf name List.mem_cons_self) values line
  | .unary line op operand, s, t, hf, h => by
    rw [evaluate_unary, evaluate_unary]
    exact (evaluate_tracks hR operand hf h).andThen fun v _ _ h => ⟨rfl, h⟩
  | .binary line op left right, s, t, hf, h => by
    have hleft := evaluate_tracks hR left (fun name hn => hf name (List.mem_append_left _ hn)) h
    rw [evaluate_binary, evaluate_binary]
    refine hleft.andThen fun a s t h => ?_
    have hright := evaluate_tracks hR right (fun name hn => hf name (List.mem_append_right _ hn)) h
    cases op.decided? a with
    | some v => exact ⟨rfl, h⟩
    | none => exact hright.andThen fun b _ _ h => ⟨rfl, h⟩

theorem evaluateAll_tracks (hR : Tracks R functions) : ∀ (es : List Expr) {s t : Session},
    (∀ name, Token.name name ∈ argumentLeaves es → functions name) → R s t →
    SameResult R (evaluateAll es s) (evaluateAll es t)
  | [], _, _, _, h => ⟨rfl, h⟩
  | e :: es, s, t, hf, h => by
    have hfirst := evaluate_tracks hR e (fun name hn => hf name (List.mem_append_left _ hn)) h
    rw [evaluateAll_cons, evaluateAll_cons]
    refine hfirst.andThen fun v s t h => ?_
    have hothers := evaluateAll_tracks hR es (fun name hn => hf name (List.mem_append_right _ hn)) h
    exact hothers.andThen fun vs _ _ h => ⟨rfl, h⟩

end

theorem evaluate_kept (hR : Kept R) (e : Expr) (s : Session) : R s (e.evaluate s).2 :=
  (evaluate_tracks (hR.tracks s) e (fun _ _ => trivial) ⟨rfl, hR.refl s⟩).session.2

end

end Expr

theorem Session.holds_kept {R : Session → Session → Prop} (hR : Kept R) (s : Session)
    (condition : Option Expr) : R s (s.holds condition).2 := by
  cases condition with
  | none => exact hR.refl s
  | some e =>
    have he := e.evaluate_kept hR s
    simp only [holds]
    split <;> rename_i hv <;> rw [hv] at he <;> exact he

end Dialogue
