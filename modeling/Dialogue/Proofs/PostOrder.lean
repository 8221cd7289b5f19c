import Dialogue.Proofs.Conditions

/-!
# The order of an evaluation

Laid out in post-order, an expression is a list of steps for a machine with a stack: operands
come before their operator, arguments before their call, and behind the left operand of
an operator stands a test that leaves out the steps of the right one where the left one
decides alone. Evaluating the expression is carrying out these steps up to the first
that fails (`carries_steps`), and what the journal notes are the reads and the calls of
the host among the steps carried out. Nothing is lost by a test: where all operands can
be evaluated, the value is the same without any (`evaluate_of_evaluateStrictly`).
-/

namespace Dialogue

namespace Expr

inductive Site where
  | var (name : String)
  | call (name : String)
deriving DecidableEq, Repr

mutual

/-- The variables and calls of an expression in post-order. -/
def sites : Expr → List Site
  | .literal _ _ => []
  | .var _ name => [.var name]
  | .call _ name args => argumentSites args ++ [.call name]
  | .unary _ _ operand => operand.sites
  | .binary _ _ left right => left.sites ++ right.sites

def argumentSites : List Expr → List Site
  | [] => []
  | e :: es => e.sites ++ argumentSites es

end

/-- What is done at a node of an expression once its operands are on the stack. -/
inductive Step where
  | literal (value : Value)
  | read (line : Nat) (name : String)
  /-- A call with so many arguments. -/
  | call (line : Nat) (name : String) (count : Nat)
  | unary (line : Nat) (op : UnaryOp)
  /-- Leaves out so many steps if the left operand decides the operator. -/
  | test (op : BinaryOp) (count : Nat)
  | binary (line : Nat) (op : BinaryOp)

mutual

def steps : Expr → List Step
  | .literal _ value => [.literal value]
  | .var line name => [.read line name]
  | .call line name args => argumentSteps args ++ [.call line name args.length]
  | .unary line op operand => operand.steps ++ [.unary line op]
  | .binary line op left right =>
    left.steps ++ (.test op (right.steps.length + 1) :: (right.steps ++ [.binary line op]))

def argumentSteps : List Expr → List Step
  | [] => []
  | e :: es => e.steps ++ argumentSteps es

end

namespace Step

def site? : Step → Option Site
  | read _ name => some (.var name)
  | call _ name _ => some (.call name)
  | _ => none

/-- The site of a step that the journal notes: a variable, or a call of the host. -/
def noted? (s : Session) : Step → Option Site
  | read _ name => some (.var name)
  | call _ name _ => if s.isHost? name = some true then some (.call name) else none
  | _ => none

/-- Does one step: the stack behind it, with the number of steps to leave out. -/
def perform : Step → List Value → Session → Except RunError (List Value × Nat) × Session
  | literal v, stack, s => (.ok (v :: stack, 0), s)
  | read line name, stack, s =>
    match s.read name with
    | (some v, s) => (.ok (v :: stack, 0), s)
    | (none, s) => (.error (.unsetVariable name line), s)
  | call line name count, stack, s =>
    match s.call name (stack.take count).reverse line with
    | (.ok v, s) => (.ok (v :: stack.drop count, 0), s)
    | (.error e, s) => (.error e, s)
  | unary line op, v :: stack, s => ((op.apply v line).map fun w => (w :: stack, 0), s)
  | test op count, v :: stack, s =>
    match op.decided? v with
    | some w => (.ok (w :: stack, count), s)
    | none => (.ok (v :: stack, 0), s)
  | binary line op, b :: a :: stack, s => ((op.apply a b line).map fun v => (v :: stack, 0), s)
  | _, stack, s => (.ok (stack, 0), s)

/-- Does steps one after another, up to the first that fails; the first `skipped` ones are left
out. Tells the steps that have been done, and the stack or the error behind them. -/
def run : (skipped : Nat) → List Step → List Value → Session →
    List Step × Except RunError (List Value) × Session
  | _, [], stack, s => ([], .ok stack, s)
  | skipped + 1, _ :: steps, stack, s => run skipped steps stack s
  | 0, step :: steps, stack, s =>
    match step.perform stack s with
    | (.ok (stack, skipped), s) => ((run skipped steps stack s).map (step :: ·) id)
    | (.error e, s) => ([step], .error e, s)

end Step

/-! ### The strict evaluator -/

mutual

/-- The value of an expression, both operands of every operator being evaluated. -/
def evaluateStrictly : Expr → Session → Except RunError Value × Session
  | .literal _ v, s => (.ok v, s)
  | .var line name, s =>
    match s.read name with
    | (some v, s) => (.ok v, s)
    | (none, s) => (.error (.unsetVariable name line), s)
  | .call line name args, s =>
    match evaluateAllStrictly args s with
    | (.ok values, s) => s.call name values line
    | (.error e, s) => (.error e, s)
  | .unary line op operand, s =>
    match operand.evaluateStrictly s with
    | (.ok v, s) => (op.apply v line, s)
    | (.error e, s) => (.error e, s)
  | .binary line op left right, s =>
    match left.evaluateStrictly s with
    | (.ok a, s) =>
      match right.evaluateStrictly s with
      | (.ok b, s) => (op.apply a b line, s)
      | (.error e, s) => (.error e, s)
    | (.error e, s) => (.error e, s)

def evaluateAllStrictly : List Expr → Session → Except RunError (List Value) × Session
  | [], s => (.ok [], s)
  | e :: es, s =>
    match e.evaluateStrictly s with
    | (.ok v, s) =>
      match evaluateAllStrictly es s with
      | (.ok vs, s) => (.ok (v :: vs), s)
      | (.error err, s) => (.error err, s)
    | (.error err, s) => (.error err, s)

end

mutual

theorem filterMap_steps : ∀ e : Expr, e.steps.filterMap Step.site? = e.sites
  | .literal _ _ => rfl
  | .var _ _ => rfl
  | .call _ _ args => by
    rw [steps, sites, List.filterMap_append, filterMap_argumentSteps args]
    rfl
  | .unary _ _ operand => by
    rw [steps, sites, List.filterMap_append, filterMap_steps operand]
    exact List.append_nil _
  | .binary _ _ left right => by
    rw [steps, sites, List.filterMap_append, filterMap_steps left, List.filterMap_cons_none rfl,
      List.filterMap_append, filterMap_steps right]
    exact congrArg (left.sites ++ ·) (List.append_nil _)

theorem filterMap_argumentSteps : ∀ es : List Expr,
    (argumentSteps es).filterMap Step.site? = argumentSites es
  | [] => rfl
  | e :: es => by
    rw [argumentSteps, argumentSites, List.filterMap_append, filterMap_steps e,
      filterMap_argumentSteps es]

end

/-! ### Carrying out steps -/

end Expr

theorem BinaryOp.apply_of_decided {op : BinaryOp} {x v : Value} (h : op.decided? x = some v)
    (y : Value) (line : Nat) : op.apply x y line = .ok v := by
  unfold BinaryOp.decided? at h
  split at h
  · rename_i hx
    cases h
    simp [BinaryOp.apply, BinaryOp.apply?, hx]
  · rename_i hx
    cases h
    simp [BinaryOp.apply, BinaryOp.apply?, hx]
  · cases h

theorem Session.call_journal (s : Session) (name : String) (args : List Value) (line : Nat) :
    (s.call name args line).2.journal = s.journal ++
      (if s.isHost? name = some true then [.call name args] else []) := by
  unfold call isHost?
  split
  · rename_i hf
    split <;> simp [hf, Function.isHost]
  · rename_i hf
    simp [hf, Function.isHost, note]
  · rename_i hf
    simp [hf]

def Access.site? : Access → Option Expr.Site
  | .read name _ => some (.var name)
  | .call name _ => some (.call name)
  | .write _ _ => none

namespace Expr

/-- The steps that follow, if nothing has failed so far. -/
def Step.proceed (done rest : List Step) (stack : List Value) (t : Session) :
    Except RunError (List Value) → List Step × Except RunError (List Value) × Session
  | .ok values => (run 0 rest (values ++ stack) t).map (done ++ ·) id
  | .error e => (done, .error e, t)

/-- Whatever follows them and whatever else is on the stack, the steps take `inputs` off the stack
and come to an outcome, with some of them done. The journal notes these in their order. -/
structure Carries (steps : List Step) (inputs : List Value) (s : Session) (done : List Step)
    (outcome : Except RunError (List Value)) (t : Session) : Prop where
  run : ∀ rest stack, Step.run 0 (steps ++ rest) (inputs ++ stack) s =
    Step.proceed done rest stack t outcome
  alike : s.Alike t
  journal : ∃ accesses, t.journal = s.journal ++ accesses ∧
    accesses.map Access.site? = (done.filterMap (Step.noted? s)).map some

section

variable {a b done later : List Step} {inputs values : List Value} {s t u : Session}
  {outcome : Except RunError (List Value)} {line : Nat}

theorem Step.noted?_alike (h : s.Alike t) : Step.noted? s = Step.noted? t := by
  funext step
  cases step with
  | call line name count => simp only [noted?, h.functions name]
  | _ => rfl

theorem Step.run_skipped (steps rest : List Step) (stack : List Value) (s : Session) :
    Step.run steps.length (steps ++ rest) stack s = Step.run 0 rest stack s := by
  induction steps with
  | nil => rfl
  | cons step steps ih => exact ih

theorem Carries.append (h : Carries a inputs s done (.ok values) t)
    (h' : Carries b values t later outcome u) :
    Carries (a ++ b) inputs s (done ++ later) outcome u where
  run := by
    intro rest stack
    rw [List.append_assoc, h.run, Step.proceed, h'.run]
    cases outcome with
    | ok values => simp [Step.proceed, Prod.map, List.append_assoc]
    | error e => rfl
  alike := h.alike.trans h'.alike
  journal := by
    obtain ⟨accesses, hj, ha⟩ := h.journal
    obtain ⟨others, hj', ha'⟩ := h'.journal
    refine ⟨accesses ++ others, by rw [hj', hj, List.append_assoc], ?_⟩
    rw [List.map_append, ha, ha', ← Step.noted?_alike h.alike, List.filterMap_append,
      List.map_append]

theorem Carries.append_error {e : RunError} (h : Carries a inputs s done (.error e) t)
    (b : List Step) : Carries (a ++ b) inputs s done (.error e) t where
  run := by
    intro rest stack
    rw [List.append_assoc, h.run]
    rfl
  alike := h.alike
  journal := h.journal

/-- What lies deeper in the stack stays there. -/
theorem Carries.above (h : Carries a inputs s done outcome t) (below : List Value) :
    Carries a (inputs ++ below) s done (outcome.map (· ++ below)) t where
  run := by
    intro rest stack
    rw [List.append_assoc, h.run]
    cases outcome with
    | ok values => simp [Step.proceed, Except.map, List.append_assoc]
    | error e => rfl
  alike := h.alike
  journal := h.journal

theorem carries_step {step : Step} (alike : s.Alike t)
    (journal : ∃ accesses, t.journal = s.journal ++ accesses ∧
      accesses.map Access.site? = (step.noted? s).toList.map some)
    (h : ∀ stack, step.perform (inputs ++ stack) s = (outcome.map fun vs => (vs ++ stack, 0), t)) :
    Carries [step] inputs s [step] outcome t where
  run := by
    intro rest stack
    rw [List.singleton_append, Step.run, h]
    cases outcome <;> rfl
  alike := alike
  journal := by
    obtain ⟨accesses, hj, ha⟩ := journal
    refine ⟨accesses, hj, ?_⟩
    rw [ha]
    cases hn : step.noted? s <;> simp [hn]

theorem carries_silent {step : Step} (hn : step.noted? s = none)
    (h : ∀ stack, step.perform (inputs ++ stack) s = (outcome.map fun vs => (vs ++ stack, 0), s)) :
    Carries [step] inputs s [step] outcome s :=
  carries_step (.refl s) ⟨[], by simp, by simp [hn]⟩ h

theorem carries_read (line : Nat) (name : String) (s : Session) :
    Carries [.read line name] [] s [.read line name]
      (((Expr.var line name).evaluate s).1.map ([·])) ((Expr.var line name).evaluate s).2 := by
  refine carries_step (evaluate_alike _ s) ⟨[.read name (s.store.get? name)], ?_, rfl⟩ ?_
  · simp only [evaluate, Session.read]
    cases s.store.get? name <;> rfl
  · intro stack
    simp only [Step.perform, evaluate, Session.read]
    cases s.store.get? name <;> rfl

theorem carries_call (line : Nat) (name : String) (args : List Value) (s : Session) :
    Carries [.call line name args.length] args.reverse s [.call line name args.length]
      ((s.call name args line).1.map ([·])) (s.call name args line).2 := by
  refine carries_step (s.call_alike name args line)
    ⟨_, Session.call_journal s name args line, ?_⟩ ?_
  · simp only [Step.noted?]
    split <;> rfl
  · intro stack
    have htake : (args.reverse ++ stack).take args.length = args.reverse := by
      rw [← List.length_reverse, List.take_left]
    have hdrop : (args.reverse ++ stack).drop args.length = stack := by
      rw [← List.length_reverse, List.drop_left]
    simp only [Step.perform, htake, hdrop, List.reverse_reverse]
    obtain ⟨result, t, hc⟩ : ∃ result t, s.call name args line = (result, t) := ⟨_, _, rfl⟩
    rw [hc]
    cases result <;> rfl

theorem carries_unary (line : Nat) (op : UnaryOp) (v : Value) (s : Session) :
    Carries [.unary line op] [v] s [.unary line op] ((op.apply v line).map ([·])) s := by
  refine carries_silent rfl fun stack => ?_
  simp only [List.singleton_append, Step.perform]
  cases op.apply v line <;> rfl

theorem carries_binary (line : Nat) (op : BinaryOp) (x y : Value) (s : Session) :
    Carries [.binary line op] [y, x] s [.binary line op] ((op.apply x y line).map ([·])) s := by
  refine carries_silent rfl fun stack => ?_
  simp only [List.cons_append, List.nil_append, Step.perform]
  cases op.apply x y line <;> rfl

theorem carries_test {op : BinaryOp} {v : Value} (h : op.decided? v = none) (count : Nat)
    (s : Session) : Carries [.test op count] [v] s [.test op count] (.ok [v]) s := by
  refine carries_silent rfl fun stack => ?_
  simp only [List.singleton_append, Step.perform, h]
  rfl

/-- Where the left operand decides, the steps behind the test are left out. -/
theorem carries_decided {op : BinaryOp} {v w : Value} (h : op.decided? v = some w)
    (b : List Step) (s : Session) :
    Carries (.test op b.length :: b) [v] s [.test op b.length] (.ok [w]) s where
  run := by
    intro rest stack
    simp only [List.cons_append, List.nil_append, Step.run, Step.perform, h, Step.run_skipped]
    rfl
  alike := .refl s
  journal := ⟨[], by simp, rfl⟩

end

theorem length_of_evaluateAll {es : List Expr} {s t : Session} {values : List Value}
    (h : evaluateAll es s = (.ok values, t)) : values.length = es.length := by
  induction es generalizing s values with
  | nil =>
    cases h
    rfl
  | cons e es ih =>
    rw [evaluateAll] at h
    split at h
    · split at h
      · rename_i hrest
        cases h
        exact congrArg Nat.succ (ih hrest)
      · cases h
    · cases h

mutual

/-- To evaluate an expression is to carry out its steps. -/
theorem carries_steps : ∀ (e : Expr) (s : Session),
    ∃ done, Carries e.steps [] s done ((e.evaluate s).1.map ([·])) (e.evaluate s).2
  | .literal _ v, s => ⟨_, carries_silent rfl fun _ => rfl⟩
  | .var line name, s => ⟨_, carries_read line name s⟩
  | .call line name args, s => by
    obtain ⟨done, hargs⟩ := carries_argumentSteps args s
    obtain ⟨result, t, he⟩ : ∃ result t, evaluateAll args s = (result, t) := ⟨_, _, rfl⟩
    rw [he] at hargs
    simp only [steps, evaluate, he]
    cases result with
    | error err => exact ⟨done, hargs.append_error _⟩
    | ok values =>
      rw [← length_of_evaluateAll he]
      exact ⟨_, hargs.append (carries_call line name values t)⟩
  | .unary line op operand, s => by
    obtain ⟨done, hoperand⟩ := carries_steps operand s
    obtain ⟨result, t, he⟩ : ∃ result t, operand.evaluate s = (result, t) := ⟨_, _, rfl⟩
    rw [he] at hoperand
    simp only [steps, evaluate, he]
    cases result with
    | error err => exact ⟨done, hoperand.append_error _⟩
    | ok v => exact ⟨_, hoperand.append (carries_unary line op v t)⟩
  | .binary line op left right, s => by
    obtain ⟨done, hleft⟩ := carries_steps left s
    obtain ⟨result, t, he⟩ : ∃ result t, left.evaluate s = (result, t) := ⟨_, _, rfl⟩
    rw [he] at hleft
    simp only [steps, evaluate, he]
    cases result with
    | error err => exact ⟨done, hleft.append_error _⟩
    | ok x =>
      cases hd : op.decided? x with
      | some v =>
        have hskip := carries_decided hd (right.steps ++ [.binary line op]) t
        rw [List.length_append] at hskip
        simp only [hd]
        exact ⟨_, hleft.append hskip⟩
      | none =>
        obtain ⟨later, hright⟩ := carries_steps right t
        obtain ⟨result, u, he'⟩ : ∃ result u, right.evaluate t = (result, u) := ⟨_, _, rfl⟩
        rw [he'] at hright
        have htest := hleft.append (carries_test hd (right.steps.length + 1) t)
        have habove := hright.above [x]
        rw [List.append_cons]
        simp only [hd, he']
        cases result with
        | error err => exact ⟨_, htest.append (habove.append_error _)⟩
        | ok y => exact ⟨_, htest.append (habove.append (carries_binary line op x y u))⟩

theorem carries_argumentSteps : ∀ (es : List Expr) (s : Session), ∃ done,
    Carries (argumentSteps es) [] s done ((evaluateAll es s).1.map List.reverse)
      (evaluateAll es s).2
  | [], s => ⟨[], ⟨fun _ _ => rfl, .refl s, [], by simp [evaluateAll], rfl⟩⟩
  | e :: es, s => by
    obtain ⟨done, hfirst⟩ := carries_steps e s
    obtain ⟨result, t, he⟩ : ∃ result t, e.evaluate s = (result, t) := ⟨_, _, rfl⟩
    rw [he] at hfirst
    simp only [argumentSteps, evaluateAll, he]
    cases result with
    | error err => exact ⟨done, hfirst.append_error _⟩
    | ok v =>
      obtain ⟨later, hothers⟩ := carries_argumentSteps es t
      obtain ⟨result, u, he'⟩ : ∃ result u, evaluateAll es t = (result, u) := ⟨_, _, rfl⟩
      rw [he'] at hothers
      have habove := hothers.above [v]
      simp only [he']
      cases result with
      | error err => exact ⟨_, hfirst.append habove⟩
      | ok values =>
        simp only [Except.map, List.reverse_cons]
        exact ⟨_, hfirst.append habove⟩

end

open Session (andThen)

theorem Hostless.alike {s t : Session} {e : Expr} (h : e.Hostless s) (ha : s.Alike t) :
    e.Hostless t := by
  intro name hn
  rw [← ha.functions name]
  exact h name hn

def ArgumentsHostless (s : Session) (es : List Expr) : Prop :=
  ∀ name, Token.name name ∈ argumentLeaves es → s.isHost? name ≠ some true

mutual

/-- What comes out where all operands are evaluated also comes out where some are left out. The
two evaluations go on in sessions that differ in their journals. -/
theorem evaluate_of_evaluateStrictly : ∀ (e : Expr) {s s' t : Session} {v : Value},
    e.Hostless s → s.Alike t → e.evaluateStrictly s = (.ok v, s') →
    s.Alike s' ∧ ∃ t', e.evaluate t = (.ok v, t') ∧ s'.Alike t'
  | .literal _ v, s, s', t, w, _, ha, h => by
    cases h
    exact ⟨.refl s, t, rfl, ha⟩
  | .var line name, s, s', t, v, hh, ha, h => by
    have hs := s.read_alike name
    have hr := Session.read_congr ha name
    rw [evaluateStrictly] at h
    rw [evaluate_var, ← hr]
    split at h <;> rename_i hread <;> rw [hread] at hs <;> cases h
    rw [hread]
    exact ⟨hs, _, rfl, ha.behind hs (t.read_alike name)⟩
  | .call line name args, s, s', t, v, hh, ha, h => by
    rw [evaluateStrictly] at h
    split at h
    · rename_i values s₁ he
      obtain ⟨hs, t₁, ht, halike⟩ := evaluateAll_of_evaluateAllStrictly args
        (fun other ho => hh other (List.mem_cons_of_mem _ ho)) ha he
      have hname : s₁.isHost? name ≠ some true := by
        rw [← hs.functions name]
        exact hh name List.mem_cons_self
      have hcall := s₁.call_alike name values line
      have hresult := Session.call_congr halike hname values line
      rw [h] at hcall hresult
      refine ⟨hs.trans hcall, (t₁.call name values line).2, ?_,
        halike.behind hcall (t₁.call_alike name values line)⟩
      rw [evaluate_call, ht, andThen, ← Prod.mk.eta (p := t₁.call name values line), ← hresult]
    · cases h
  | .unary line op operand, s, s', t, v, hh, ha, h => by
    rw [evaluateStrictly] at h
    split at h
    · rename_i x s₁ he
      obtain ⟨hs, t₁, ht, halike⟩ := evaluate_of_evaluateStrictly operand hh ha he
      obtain ⟨hv, rfl⟩ := Prod.mk.inj h
      refine ⟨hs, t₁, ?_, halike⟩
      rw [evaluate_unary, ht, andThen, hv]
    · cases h
  | .binary line op left right, s, s', t, v, hh, ha, h => by
    rw [evaluateStrictly] at h
    split at h
    · rename_i x s₁ he
      obtain ⟨hs, t₁, ht, halike⟩ := evaluate_of_evaluateStrictly left
        (fun name hn => hh name (List.mem_append_left _ hn)) ha he
      split at h
      · rename_i y s₂ he'
        have hlater : right.Hostless s := fun name hn => hh name (List.mem_append_right _ hn)
        obtain ⟨hs', t₂, ht', halike'⟩ :=
          evaluate_of_evaluateStrictly right (hlater.alike hs) halike he'
        obtain ⟨hv, rfl⟩ := Prod.mk.inj h
        rw [evaluate_binary, ht, andThen]
        cases hd : op.decided? x with
        | some w =>
          -- The right operand is left out: its evaluation has changed nothing that counts.
          have hw : Except.ok w = .ok v := (BinaryOp.apply_of_decided hd y line).symm.trans hv
          cases hw
          exact ⟨hs.trans hs', t₁, rfl, hs'.symm.trans halike⟩
        | none => exact ⟨hs.trans hs', t₂, by rw [ht', andThen, hv], halike'⟩
      · cases h
    · cases h

theorem evaluateAll_of_evaluateAllStrictly : ∀ (es : List Expr) {s s' t : Session}
    {values : List Value}, ArgumentsHostless s es → s.Alike t →
    evaluateAllStrictly es s = (.ok values, s') →
    s.Alike s' ∧ ∃ t', evaluateAll es t = (.ok values, t') ∧ s'.Alike t'
  | [], s, s', t, values, _, ha, h => by
    cases h
    exact ⟨.refl s, t, rfl, ha⟩
  | e :: es, s, s', t, values, hh, ha, h => by
    rw [evaluateAllStrictly] at h
    split at h
    · rename_i x s₁ he
      obtain ⟨hs, t₁, ht, halike⟩ := evaluate_of_evaluateStrictly e
        (fun name hn => hh name (List.mem_append_left _ hn)) ha he
      split at h
      · rename_i others s₂ he'
        have hlater : ArgumentsHostless s₁ es := by
          intro name hn
          rw [← hs.functions name]
          exact hh name (List.mem_append_right _ hn)
        obtain ⟨hs', t₂, ht', halike'⟩ := evaluateAll_of_evaluateAllStrictly es hlater halike he'
        cases h
        refine ⟨hs.trans hs', t₂, ?_, halike'⟩
        rw [evaluateAll_cons, ht, andThen, ht', andThen]
      · cases h
    · cases h

end

/-- Without calls of the host, what the strict evaluator comes to is what evaluation comes to. With
or without them, variables and the nodes entered stay as they are, and evaluation is to carry out
the steps of the expression, which are its variables and calls in post-order with the operators
between them; the journal goes on with the reads and the calls of the host among the steps that are
done. -/
theorem evaluates_in_post_order (e : Expr) (s : Session) :
    (e.Hostless s → ∀ v, (e.evaluateStrictly s).1 = .ok v → (e.evaluate s).1 = .ok v) ∧
    (e.evaluate s).2.store = s.store ∧ (e.evaluate s).2.visited = s.visited ∧
    e.steps.filterMap Step.site? = e.sites ∧
    ∃ done accesses,
      Step.run 0 e.steps [] s = (done, (e.evaluate s).1.map ([·]), (e.evaluate s).2) ∧
      (e.evaluate s).2.journal = s.journal ++ accesses ∧
      accesses.map Access.site? = (done.filterMap (Step.noted? s)).map some := by
  have halike := e.evaluate_alike s
  obtain ⟨done, hcarries⟩ := e.carries_steps s
  obtain ⟨accesses, hjournal, haccesses⟩ := hcarries.journal
  refine ⟨fun hh v hv => ?_, halike.store.symm, halike.visited.symm, filterMap_steps e, done,
    accesses, ?_, hjournal, haccesses⟩
  · obtain ⟨-, t, ht, -⟩ := evaluate_of_evaluateStrictly e hh (.refl s) (Prod.ext hv rfl)
    rw [ht]
  · have hrun := hcarries.run [] []
    rw [List.append_nil] at hrun
    rw [show ([] : List Value) = [] ++ [] from rfl, hrun]
    cases (e.evaluate s).1 <;> simp [Step.proceed, Except.map, Step.run]

/-- At a door that is open in any case, the strict evaluator still asks for the hall. -/
theorem evaluates_in_post_order_open_door :
    let door : Expr := .binary 1 .or (.literal 1 (.bool true))
      (.call 1 "visited" [.literal 1 (.string "Hall")])
    door.Hostless {} ∧ (door.evaluateStrictly {}).1 = .ok (.bool true) ∧
      (door.evaluate {}).1 = .ok (.bool true) := by
  intro door
  have hhostless : door.Hostless {} := by
    intro name hn
    have hname : name = "visited" := by simpa [door, leaves, argumentLeaves] using hn
    subst hname
    decide
  have hstrict : (door.evaluateStrictly {}).1 = .ok (.bool true) := rfl
  exact ⟨hhostless, hstrict, (evaluates_in_post_order door {}).1 hhostless _ hstrict⟩

end Expr

end Dialogue
