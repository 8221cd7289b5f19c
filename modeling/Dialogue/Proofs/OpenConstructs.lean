import Dialogue.Proofs.Climbing

/-!
# The stack of open constructs

The stack on which the parser keeps what is open is the climbing reader with its calls
written out (`readOperand_eq_read`): the innermost construct gives the loosest operator
that its operand may still take, and what the reader takes from there is completed on
top of the stack. A whole expression is therefore read from the loosest level and has
to end with its command (`ofLexemes_eq_read`).
-/

namespace Dialogue

namespace Expr

open Method

/-- The loosest operator that the innermost open construct leaves to its operand. -/
def floor : List Pending → Nat
  | .right _ op :: _ => op.precedence + 1
  | .operand _ :: _ => 7
  | _ => 1

variable {source : Source}

/-- What is open matters to the next lexeme only through what it completes. -/
theorem readOperator_congr {stack stack' : List Pending} {e e' : Expr} {lexemes : List Lexeme}
    (hclosing : closing stack = closing stack')
    (hall : complete source.line 0 stack e = complete source.line 0 stack' e')
    (hop : ∀ op ∈ lexemes.head?.bind Lexeme.binaryOp?,
      complete source.line op.precedence stack e = complete source.line op.precedence stack' e') :
    readOperator source stack e lexemes = readOperator source stack' e' lexemes := by
  cases lexemes with
  | nil => rw [readOperator, readOperator, hall]
  | cons lexeme rest =>
    rw [readOperator, readOperator, hall, hclosing]
    split
    · rfl
    · rfl
    · rename_i s _ _ htoken
      cases hs : s.binaryOp? with
      | none => rfl
      | some op =>
        have hhead : lexeme.binaryOp? = some op := by
          rw [Lexeme.binaryOp?_of_symbol htoken, hs]
        simp only [hop op hhead]
    · rfl

theorem readOperator_operand (stack : List Pending) (op : UnaryOp) (e : Expr)
    (lexemes : List Lexeme) :
    readOperator source (.operand op :: stack) e lexemes =
      readOperator source stack (.unary source.line op e) lexemes :=
  readOperator_congr rfl rfl fun _ _ => rfl

theorem readOperator_right (stack : List Pending) (left : Expr) (op : BinaryOp) (e : Expr)
    {lexemes : List Lexeme} (h : Stops (op.precedence + 1) lexemes) :
    readOperator source (.right left op :: stack) e lexemes =
      readOperator source stack (.binary source.line op left e) lexemes := by
  refine readOperator_congr rfl ?_ fun next hnext => ?_
  · rw [complete, if_pos (Nat.zero_le _)]
  · rw [complete, if_pos (Nat.le_of_lt_succ (h next hnext))]

theorem complete_of_floor_le {stack : List Pending} {level : Nat} (h : floor stack ≤ level)
    (hle : level ≤ 6) (line : Nat) (e : Expr) : complete line level stack e = (stack, e) := by
  match stack with
  | [] => rfl
  | .group :: _ => rfl
  | .call _ _ :: _ => rfl
  | .operand _ :: _ =>
    have : 7 ≤ level := h
    omega
  | .right _ op :: _ =>
    have : op.precedence + 1 ≤ level := h
    rw [complete, if_neg (by omega)]

theorem readOperator_binaryOp {stack : List Pending} {e : Expr} {lexeme : Lexeme} {op : BinaryOp}
    (hop : lexeme.binaryOp? = some op) (h : floor stack ≤ op.precedence) (rest : List Lexeme) :
    readOperator source stack e (lexeme :: rest) =
      readOperand source (.right e op :: stack) rest :=
  readOperator_binary source stack stack e e lexeme rest op (Lexeme.binaryOp?_eq_some.1 hop)
    (complete_of_floor_le h op.precedence_le_six _ _)

theorem readOperator_of_stops {lexeme : Lexeme} {rest : List Lexeme}
    (h : Stops 1 (lexeme :: rest)) (hclose : lexeme.token ≠ .symbol .closeParen)
    (hcomma : lexeme.token ≠ .symbol .comma) (stack : List Pending) (e : Expr) :
    readOperator source stack e (lexeme :: rest) =
      .error (source.misfit (closing stack) (lexeme :: rest)) := by
  rw [readOperator]
  split
  · contradiction
  · contradiction
  · rename_i s _ _ htoken
    cases hs : s.binaryOp? with
    | none => rfl
    | some op =>
      have hhead : lexeme.binaryOp? = some op := by
        rw [Lexeme.binaryOp?_of_symbol htoken, hs]
      exact absurd (h op hhead) (by have := op.one_le_precedence; omega)
  · rfl

theorem readOperator_group {lexemes : List Lexeme} (h : Stops 1 lexemes) (stack : List Pending)
    (e : Expr) :
    readOperator source (.group :: stack) e lexemes =
      if begins .closeParen lexemes then readOperator source stack e (lexemes.drop 1)
      else .error (source.misfit .closeParen lexemes) := by
  cases lexemes with
  | nil => simp [readOperator, complete, closing, begins]
  | cons lexeme rest =>
    by_cases hclose : lexeme.token = .symbol .closeParen
    · rw [readOperator_close source _ _ e e lexeme rest hclose rfl]
      simp [begins, hclose]
    · by_cases hcomma : lexeme.token = .symbol .comma
      · simp [readOperator, complete, closing, begins, hcomma]
      · rw [readOperator_of_stops h hclose hcomma]
        simp [begins, hclose, closing]

theorem readOperator_call {lexemes : List Lexeme} (h : Stops 1 lexemes) (stack : List Pending)
    (name : String) (args : List Expr) (e : Expr) :
    readOperator source (.call name args :: stack) e lexemes =
      if begins .closeParen lexemes then
        readOperator source stack (.call source.line name (args ++ [e])) (lexemes.drop 1)
      else if begins .comma lexemes then
        readOperand source (.call name (args ++ [e]) :: stack) (lexemes.drop 1)
      else .error (source.misfit .commaOrCloseParen lexemes) := by
  cases lexemes with
  | nil => simp [readOperator, complete, closing, begins]
  | cons lexeme rest =>
    by_cases hclose : lexeme.token = .symbol .closeParen
    · rw [readOperator_close_call source _ _ e e name args lexeme rest hclose rfl]
      simp [begins, hclose]
    · by_cases hcomma : lexeme.token = .symbol .comma
      · rw [readOperator_comma source _ _ e e name args lexeme rest hcomma rfl]
        simp [begins, hcomma]
      · rw [readOperator_of_stops h hclose hcomma]
        simp [begins, hclose, hcomma, closing]

def finish (source : Source) (e : Expr) : List Lexeme → Except Misfit Expr
  | [] => .ok e
  | rest => .error (source.misfit .commandEnd rest)

theorem readOperator_whole {lexemes : List Lexeme} (h : Stops 1 lexemes) (e : Expr) :
    readOperator source [] e lexemes = finish source e lexemes := by
  cases lexemes with
  | nil => simp [readOperator, complete, finish]
  | cons lexeme rest =>
    by_cases hclose : lexeme.token = .symbol .closeParen
    · simp [readOperator, complete, closing, finish, hclose]
    · by_cases hcomma : lexeme.token = .symbol .comma
      · simp [readOperator, complete, closing, finish, hcomma]
      · rw [readOperator_of_stops h hclose hcomma]
        rfl

/-! ### Operands -/

/-- On lists shorter than `length`, an operand is read from the level that the innermost open
construct leaves to it. -/
def MatchesBelow (source : Source) (length : Nat) : Prop :=
  ∀ stack lexemes, lexemes.length < length →
    readOperand source stack lexemes =
      (climbing.read source (floor stack) lexemes).proceed lexemes (readOperator source stack)

/-- Reading an operator is to go on in the loop and then to complete what is open. -/
theorem MatchesBelow.operator {length : Nat} (h : MatchesBelow source length)
    (stack : List Pending) (e : Expr) (lexemes : List Lexeme) (hl : lexemes.length ≤ length) :
    readOperator source stack e lexemes =
      (climbing.readLoop source (floor stack) e lexemes).proceed lexemes
        (readOperator source stack) := by
  induction hn : lexemes.length using Nat.strong_induction_on generalizing lexemes e with
  | _ n ih =>
    rcases stops_or (floor stack) lexemes with hs | ⟨lexeme, rest, op, rfl, hop, hle⟩
    · rw [climbing_readLoop_of_stops source hs]
      rfl
    · rw [List.length_cons] at hl hn
      rw [readOperator_binaryOp hop hle, h _ rest (by omega),
        readLoop_of_takes _ _ hop (climbing_takes.2 hle), Reading.proceed_after, List.drop_one,
        List.tail_cons, Reading.proceed_andThen]
      refine Reading.proceed_congr fun right k hr => ?_
      have hstop : Stops (op.precedence + 1) (rest.drop k) := stops_of_read source hr
      have hk : (rest.drop k).length ≤ rest.length := by
        rw [List.length_drop]
        omega
      rw [readOperator_right stack e op right hstop]
      exact ih _ (by omega) _ _ (by omega) rfl

theorem MatchesBelow.arguments {length : Nat} (h : MatchesBelow source length)
    (stack : List Pending) (name : String) (args : List Expr) (lexemes : List Lexeme)
    (hl : lexemes.length < length) :
    readOperand source (.call name args :: stack) lexemes =
      (climbing.readArguments source lexemes).proceed lexemes fun more =>
        readOperator source stack (.call source.line name (args ++ more)) := by
  induction hn : lexemes.length using Nat.strong_induction_on generalizing lexemes args with
  | _ n ih =>
    rw [h _ lexemes hl, Method.readArguments]
    cases hr : climbing.read source 1 lexemes with
    | error misfit => simp only [floor, hr, Reading.proceed]
    | ok read =>
      obtain ⟨arg, k⟩ := read
      simp only [floor, hr, Reading.proceed]
      rw [readOperator_call (stops_of_read source hr)]
      split
      · simp only [List.drop_drop]
      · split
        · rename_i hcomma
          have hshort := length_drop_of_begins hcomma
          rw [List.drop_drop, ih _ (by omega) _ _ (by omega) rfl]
          rcases climbing.readArguments source (lexemes.drop (k + 1)) with misfit | ⟨more, j⟩
          · rfl
          · simp only [Reading.proceed, List.drop_drop, List.append_assoc, List.singleton_append]
        · rfl

theorem readArguments_of_open {lexeme : Lexeme} (h : lexeme.token = .symbol .openParen)
    (stack : List Pending) (name : String) (rest : List Lexeme) :
    readArguments source stack name (lexeme :: rest) =
      if begins .closeParen rest then
        readOperator source stack (.call source.line name []) (rest.drop 1)
      else readOperand source (.call name [] :: stack) rest := by
  cases rest with
  | nil => simp [readArguments, h, begins]
  | cons next rest => simp [readArguments, h, begins]

theorem MatchesBelow.call {length : Nat} (h : MatchesBelow source length)
    (stack : List Pending) (name : String) (lexemes : List Lexeme) (hl : lexemes.length < length) :
    readArguments source stack name lexemes =
      (climbing.readCall source name lexemes).proceed lexemes (readOperator source stack) := by
  rw [Method.readCall]
  cases lexemes with
  | nil => simp [readArguments, begins, Reading.proceed]
  | cons lexeme rest =>
    rw [List.length_cons] at hl
    by_cases hopen : lexeme.token = .symbol .openParen
    · have hbegins : begins .openParen (lexeme :: rest) = true := by simp [begins, hopen]
      have hdrop : (lexeme :: rest).drop 1 = rest := rfl
      rw [readArguments_of_open hopen, if_pos hbegins, hdrop]
      split
      · rfl
      · rw [h.arguments stack name [] rest (by omega)]
        rcases climbing.readArguments source rest with misfit | ⟨args, n⟩
        · rfl
        · simp only [Reading.proceed, List.nil_append, Nat.add_comm 1 n, List.drop_succ_cons]
    · cases rest <;> simp [readArguments, begins, hopen, Reading.proceed]

theorem MatchesBelow.primary {lexeme : Lexeme} {rest : List Lexeme}
    (h : MatchesBelow source (rest.length + 1)) (hop : lexeme.unaryOp? = none)
    (stack : List Pending) :
    readOperand source stack (lexeme :: rest) =
      (climbing.readPrimary source lexeme rest).proceed (lexeme :: rest)
        (readOperator source stack) := by
  have hshort : rest.length < rest.length + 1 := Nat.lt_succ_self _
  rw [readOperand]
  split
  · rename_i htoken
    simp only [Method.readPrimary, htoken, Reading.proceed, List.drop_succ_cons, List.drop_zero]
  · rename_i htoken
    simp only [Method.readPrimary, htoken, Reading.proceed, List.drop_succ_cons, List.drop_zero]
  · rename_i name htoken
    rw [h.call stack name rest hshort, Method.readPrimary, htoken]
    exact (Reading.proceed_after 1 _ (lexeme :: rest) _).symm
  · rename_i htoken
    rw [h _ rest hshort, show floor (.group :: stack) = 1 from rfl, Method.readPrimary, htoken]
    cases hr : climbing.read source 1 rest with
    | error misfit => rfl
    | ok read =>
      obtain ⟨inner, n⟩ := read
      simp only [Reading.proceed]
      rw [readOperator_group (stops_of_read source hr)]
      split
      · simp only [List.drop_drop, Nat.add_comm 1 n, List.drop_succ_cons]
      · rfl
  · rename_i htoken
    rw [Lexeme.unaryOp?_of_symbol htoken] at hop
    cases hop
  · rename_i htoken
    rw [Lexeme.unaryOp?_of_symbol htoken] at hop
    cases hop
  · rename_i hopen _ _ htoken
    rw [readPrimary_of_symbol climbing source htoken hopen]
    rfl

/-- Up to the first operator the stack takes what a unary operand is. -/
theorem MatchesBelow.operand {lexemes : List Lexeme} (h : MatchesBelow source lexemes.length)
    (stack : List Pending) :
    readOperand source stack lexemes =
      (climbing.readUnary source lexemes).proceed lexemes (readOperator source stack) := by
  cases lexemes with
  | nil => simp only [readOperand, Method.readUnary, Reading.proceed]
  | cons lexeme rest =>
    rw [Method.readUnary]
    cases hop : lexeme.unaryOp? with
    | none => exact h.primary hop stack
    | some op =>
      rw [readOperand_unary source stack lexeme rest op (Lexeme.unaryOp?_eq_some.1 hop),
        h _ rest (Nat.lt_succ_self _), show floor (.operand op :: stack) = 7 from rfl,
        read_of_ge _ _ (Nat.le_refl 7)]
      rcases climbing.readUnary source rest with misfit | ⟨operand, n⟩
      · rfl
      · simp only [Reading.proceed, readOperator_operand, Nat.add_comm 1 n, List.drop_succ_cons]

/-- The stack of open constructs reads what the climbing reader reads from the level in force,
and goes on behind it. -/
theorem readOperand_eq_read (source : Source) (stack : List Pending) (lexemes : List Lexeme) :
    readOperand source stack lexemes =
      (climbing.read source (floor stack) lexemes).proceed lexemes (readOperator source stack) := by
  induction hl : lexemes.length using Nat.strong_induction_on generalizing stack lexemes with
  | _ length ih =>
    have h : MatchesBelow source lexemes.length :=
      fun stack' shorter hs => ih _ (hl ▸ hs) stack' shorter rfl
    rw [h.operand, climbing_read, Reading.proceed_andThen]
    refine Reading.proceed_congr fun operand n _ => ?_
    exact h.operator stack operand _ (by rw [List.length_drop]; omega)

theorem ofLexemes_eq_read (source : Source) (lexemes : List Lexeme) :
    ofLexemes source lexemes =
      (climbing.read source 1 lexemes).proceed lexemes (finish source) := by
  rw [ofLexemes, readOperand_eq_read]
  exact Reading.proceed_congr fun e n h => readOperator_whole (stops_of_read source h) e

end Expr

end Dialogue
