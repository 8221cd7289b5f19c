import Dialogue.Proofs.Regrouping

/-!
# Levels of operators

Two recursive readers of expressions, which differ in how they go through the levels
of the binary operators. The climbing reader takes every operator that binds at least
as tightly as a minimum in one loop; the layered reader has one loop for each level,
whose operands are read one level up. Both tell the expression and how many lexemes
it took, or the lexeme that does not fit, and they agree at every level
(`read_climbing_eq_layered`): where the climbing reader stops, no operator of its level
or a tighter one follows, so the loops of the levels above have nothing left to take.
-/

namespace Dialogue

/-- The operators of a level, from the loosest level to the tightest. -/
def BinaryOp.atLevel : Nat → List BinaryOp
  | 1 => [.or, .xor]
  | 2 => [.and]
  | 3 => [.eq, .ne]
  | 4 => [.lt, .le, .gt, .ge]
  | 5 => [.add, .sub]
  | 6 => [.mul, .div]
  | _ => []

theorem BinaryOp.mem_atLevel (op : BinaryOp) (level : Nat) :
    op ∈ atLevel level ↔ op.precedence = level := by
  unfold atLevel
  split <;> cases op <;> simp_all [precedence, eq_comm]

namespace Expr

def Lexeme.binaryOp? (lexeme : Lexeme) : Option BinaryOp :=
  match lexeme.token with
  | .symbol s => s.binaryOp?
  | _ => none

def Lexeme.unaryOp? (lexeme : Lexeme) : Option UnaryOp :=
  match lexeme.token with
  | .symbol s => s.unaryOp?
  | _ => none

theorem Lexeme.binaryOp?_of_symbol {lexeme : Lexeme} {s : Symbol} (h : lexeme.token = .symbol s) :
    lexeme.binaryOp? = s.binaryOp? := by
  simp only [Lexeme.binaryOp?, h]

theorem Lexeme.unaryOp?_of_symbol {lexeme : Lexeme} {s : Symbol} (h : lexeme.token = .symbol s) :
    lexeme.unaryOp? = s.unaryOp? := by
  simp only [Lexeme.unaryOp?, h]

theorem Lexeme.binaryOp?_eq_some {lexeme : Lexeme} {op : BinaryOp} :
    lexeme.binaryOp? = some op ↔ lexeme.token = .symbol op.token := by
  constructor
  · intro h
    unfold Lexeme.binaryOp? at h
    split at h
    · rename_i s hs
      rw [hs]
      cases s <;> cases h <;> rfl
    · cases h
  · intro h
    rw [Lexeme.binaryOp?_of_symbol h]
    cases op <;> rfl

theorem Lexeme.unaryOp?_eq_some {lexeme : Lexeme} {op : UnaryOp} :
    lexeme.unaryOp? = some op ↔ lexeme.token = .symbol op.token := by
  constructor
  · intro h
    unfold Lexeme.unaryOp? at h
    split at h
    · rename_i s hs
      rw [hs]
      cases s <;> cases h <;> rfl
    · cases h
  · intro h
    rw [Lexeme.unaryOp?_of_symbol h]
    cases op <;> rfl

def begins (s : Symbol) (lexemes : List Lexeme) : Bool :=
  lexemes.head?.any fun lexeme => lexeme.token = .symbol s

theorem begins_iff {s : Symbol} {lexemes : List Lexeme} :
    begins s lexemes = true ↔
      ∃ lexeme rest, lexemes = lexeme :: rest ∧ lexeme.token = .symbol s := by
  cases lexemes with
  | nil => simp [begins]
  | cons lexeme rest => simp [begins]

theorem length_drop_of_begins {s : Symbol} {lexemes : List Lexeme} {n : Nat}
    (h : begins s (lexemes.drop n) = true) :
    (lexemes.drop (n + 1)).length < lexemes.length := by
  obtain ⟨lexeme, rest, hd, -⟩ := begins_iff.1 h
  have hl := congrArg List.length hd
  rw [List.length_drop, List.length_cons] at hl
  rw [List.length_drop]
  omega

/-- What was read and how many lexemes it took, or the lexeme that does not fit. -/
abbrev Reading (α : Type) := Except Misfit (α × Nat)

namespace Reading

variable {α β γ : Type}

/-- A reading that began behind `n` lexemes, counted from the first of them. -/
def after (n : Nat) : Reading α → Reading α
  | .error m => .error m
  | .ok (a, k) => .ok (a, n + k)

def proceed (r : Reading α) (lexemes : List Lexeme) (f : α → List Lexeme → Except Misfit β) :
    Except Misfit β :=
  match r with
  | .error m => .error m
  | .ok (a, n) => f a (lexemes.drop n)

def andThen (r : Reading α) (lexemes : List Lexeme) (f : α → List Lexeme → Reading β) :
    Reading β :=
  match r with
  | .error m => .error m
  | .ok (a, n) => (f a (lexemes.drop n)).after n

theorem after_zero (r : Reading α) : r.after 0 = r := by
  rcases r with m | ⟨a, n⟩
  · rfl
  · simp only [after, Nat.zero_add]

theorem after_after (n k : Nat) (r : Reading α) : (r.after k).after n = r.after (n + k) := by
  rcases r with m | ⟨a, j⟩
  · rfl
  · simp only [after, Nat.add_assoc]

theorem after_eq_ok {n j : Nat} {r : Reading α} {a : α} (h : r.after n = .ok (a, j)) :
    ∃ k, r = .ok (a, k) ∧ j = n + k := by
  rcases r with m | ⟨b, k⟩
  · cases h
  · cases h
    exact ⟨k, rfl, rfl⟩

theorem andThen_eq_ok {r : Reading α} {lexemes : List Lexeme}
    {f : α → List Lexeme → Reading β} {b : β} {j : Nat} (h : r.andThen lexemes f = .ok (b, j)) :
    ∃ a n k, r = .ok (a, n) ∧ f a (lexemes.drop n) = .ok (b, k) ∧ j = n + k := by
  rcases r with m | ⟨a, n⟩
  · cases h
  · obtain ⟨k, hk, hj⟩ := after_eq_ok h
    exact ⟨a, n, k, rfl, hk, hj⟩

theorem andThen_andThen (r : Reading α) (lexemes : List Lexeme)
    (f : α → List Lexeme → Reading β) (g : β → List Lexeme → Reading γ) :
    (r.andThen lexemes f).andThen lexemes g =
      r.andThen lexemes fun a rest => (f a rest).andThen rest g := by
  rcases r with m | ⟨a, n⟩
  · rfl
  · simp only [andThen]
    rcases f a (lexemes.drop n) with m | ⟨b, k⟩
    · rfl
    · simp only [after, List.drop_drop]
      exact (after_after n k _).symm

theorem proceed_andThen (r : Reading α) (lexemes : List Lexeme)
    (f : α → List Lexeme → Reading β) (g : β → List Lexeme → Except Misfit γ) :
    (r.andThen lexemes f).proceed lexemes g =
      r.proceed lexemes fun a rest => (f a rest).proceed rest g := by
  rcases r with m | ⟨a, n⟩
  · rfl
  · simp only [andThen, proceed]
    rcases f a (lexemes.drop n) with m | ⟨b, k⟩
    · rfl
    · simp only [after, List.drop_drop]

theorem andThen_after (n : Nat) (r : Reading α) (lexemes : List Lexeme)
    (f : α → List Lexeme → Reading β) :
    (r.after n).andThen lexemes f = (r.andThen (lexemes.drop n) f).after n := by
  rcases r with m | ⟨a, k⟩
  · rfl
  · simp only [after, andThen, List.drop_drop]
    exact (after_after n k _).symm

theorem proceed_after (n : Nat) (r : Reading α) (lexemes : List Lexeme)
    (f : α → List Lexeme → Except Misfit β) :
    (r.after n).proceed lexemes f = r.proceed (lexemes.drop n) f := by
  rcases r with m | ⟨a, k⟩
  · rfl
  · simp only [after, proceed, List.drop_drop]

theorem andThen_congr {r : Reading α} {lexemes : List Lexeme}
    {f g : α → List Lexeme → Reading β}
    (h : ∀ a n, r = .ok (a, n) → f a (lexemes.drop n) = g a (lexemes.drop n)) :
    r.andThen lexemes f = r.andThen lexemes g := by
  rcases r with m | ⟨a, n⟩
  · rfl
  · rw [andThen, andThen, h a n rfl]

theorem proceed_congr {r : Reading α} {lexemes : List Lexeme}
    {f g : α → List Lexeme → Except Misfit β}
    (h : ∀ a n, r = .ok (a, n) → f a (lexemes.drop n) = g a (lexemes.drop n)) :
    r.proceed lexemes f = r.proceed lexemes g := by
  rcases r with m | ⟨a, n⟩
  · rfl
  · exact h a n rfl

end Reading

/-! ### The two readers -/

/-- How a reader goes through the levels of the binary operators; the operands of the
tightest level are unary. -/
structure Method where
  /-- The level at which the first operand of a level is read. -/
  inner : Nat → Nat
  lt_inner : ∀ level < 7, level < inner level
  takes : Nat → BinaryOp → Bool
  /-- The level at which the right operand of such an operator is read. -/
  above : Nat → BinaryOp → Nat

namespace Method

/-- One loop for all levels from a minimum up. -/
def climbing : Method where
  inner _ := 7
  lt_inner _ h := h
  takes level op := level ≤ op.precedence
  above _ op := op.precedence + 1

/-- One loop for each level. -/
def layered : Method where
  inner level := level + 1
  lt_inner level _ := Nat.lt_succ_self level
  takes level op := op ∈ BinaryOp.atLevel level
  above level _ := level + 1

-- Below, every call is on fewer lexemes, or at a tighter level, or on the way down from a
-- level to a primary; the measures rank these in that order.
mutual

def read (m : Method) (source : Source) (level : Nat) (lexemes : List Lexeme) : Reading Expr :=
  if 7 ≤ level then m.readUnary source lexemes
  else
    match m.read source (m.inner level) lexemes with
    | .error misfit => .error misfit
    | .ok (first, n) => (m.readLoop source level first (lexemes.drop n)).after n
termination_by 12 * lexemes.length + 3 + (7 - level)
decreasing_by
  · omega
  · have := m.lt_inner level (by omega)
    omega
  · rw [List.length_drop]
    omega

def readLoop (m : Method) (source : Source) (level : Nat) (left : Expr)
    (lexemes : List Lexeme) : Reading Expr :=
  match lexemes with
  | [] => .ok (left, 0)
  | lexeme :: rest =>
    match lexeme.binaryOp?.filter (m.takes level) with
    | none => .ok (left, 0)
    | some op =>
      match m.read source (m.above level op) rest with
      | .error misfit => .error misfit
      | .ok (right, n) =>
        (m.readLoop source level (.binary source.line op left right) (rest.drop n)).after (1 + n)
termination_by 12 * lexemes.length
decreasing_by
  · rw [List.length_cons]
    omega
  · rw [List.length_cons, List.length_drop]
    omega

def readUnary (m : Method) (source : Source) (lexemes : List Lexeme) : Reading Expr :=
  match lexemes with
  | [] => .error (source.misfit .expression [])
  | lexeme :: rest =>
    match lexeme.unaryOp? with
    | some op =>
      match m.readUnary source rest with
      | .error misfit => .error misfit
      | .ok (operand, n) => .ok (.unary source.line op operand, 1 + n)
    | none => m.readPrimary source lexeme rest
termination_by 12 * lexemes.length + 2
decreasing_by
  all_goals
    rw [List.length_cons]
    omega

def readPrimary (m : Method) (source : Source) (lexeme : Lexeme) (rest : List Lexeme) :
    Reading Expr :=
  match lexeme.token with
  | .literal value => .ok (.literal source.line value, 1)
  | .var name => .ok (.var source.line name, 1)
  | .name name => (m.readCall source name rest).after 1
  | .symbol .openParen =>
    match m.read source 1 rest with
    | .error misfit => .error misfit
    | .ok (inner, n) =>
      if begins .closeParen (rest.drop n) then .ok (inner, 1 + n + 1)
      else .error (source.misfit .closeParen (rest.drop n))
  | .symbol _ => .error (source.misfit .expression (lexeme :: rest))
termination_by 12 * rest.length + 12

def readCall (m : Method) (source : Source) (name : String) (lexemes : List Lexeme) :
    Reading Expr :=
  if begins .openParen lexemes then
    if begins .closeParen (lexemes.drop 1) then .ok (.call source.line name [], 2)
    else
      match m.readArguments source (lexemes.drop 1) with
      | .error misfit => .error misfit
      | .ok (args, n) => .ok (.call source.line name args, 1 + n)
  else .error (source.misfit .openParen lexemes)
termination_by 12 * lexemes.length + 11
decreasing_by
  rw [List.length_drop]
  omega

/-- One argument or more, with the parenthesis behind the last one. -/
def readArguments (m : Method) (source : Source) (lexemes : List Lexeme) : Reading (List Expr) :=
  match m.read source 1 lexemes with
  | .error misfit => .error misfit
  | .ok (arg, n) =>
    if begins .closeParen (lexemes.drop n) then .ok ([arg], n + 1)
    else if _ : begins .comma (lexemes.drop n) then
      match m.readArguments source (lexemes.drop (n + 1)) with
      | .error misfit => .error misfit
      | .ok (args, k) => .ok (arg :: args, n + 1 + k)
    else .error (source.misfit .commaOrCloseParen (lexemes.drop n))
termination_by 12 * lexemes.length + 10
decreasing_by
  · omega
  · have := length_drop_of_begins ‹begins .comma (lexemes.drop n) = true›
    omega

end

variable (m : Method) (source : Source)

theorem read_of_ge {level : Nat} (h : 7 ≤ level) (lexemes : List Lexeme) :
    m.read source level lexemes = m.readUnary source lexemes := by
  rw [read, if_pos h]

theorem read_of_lt {level : Nat} (h : level < 7) (lexemes : List Lexeme) :
    m.read source level lexemes =
      (m.read source (m.inner level) lexemes).andThen lexemes (m.readLoop source level) := by
  rw [read, if_neg (by omega)]
  rcases m.read source (m.inner level) lexemes with misfit | ⟨first, n⟩ <;> rfl

theorem readPrimary_of_symbol {lexeme : Lexeme} {s : Symbol} (h : lexeme.token = .symbol s)
    (hopen : s ≠ .openParen) (rest : List Lexeme) :
    m.readPrimary source lexeme rest =
      .error (source.misfit .expression (lexeme :: rest)) := by
  rw [readPrimary, h]
  cases s with
  | openParen => exact absurd rfl hopen
  | _ => rfl

/-- The first of the lexemes is no operator that binds as tightly as this level or tighter. -/
def Stops (level : Nat) (lexemes : List Lexeme) : Prop :=
  ∀ op ∈ lexemes.head?.bind Lexeme.binaryOp?, op.precedence < level

theorem stops_or (level : Nat) (lexemes : List Lexeme) :
    Stops level lexemes ∨ ∃ lexeme rest op, lexemes = lexeme :: rest ∧
      lexeme.binaryOp? = some op ∧ level ≤ op.precedence := by
  cases lexemes with
  | nil => exact .inl nofun
  | cons lexeme rest =>
    cases hop : lexeme.binaryOp? with
    | none =>
      left
      intro op h
      cases hop.symm.trans h
    | some op =>
      rcases Nat.lt_or_ge op.precedence level with hlt | hge
      · left
        intro op' h
        cases hop.symm.trans h
        exact hlt
      · exact .inr ⟨lexeme, rest, op, rfl, hop, hge⟩

theorem Stops.mono {level level' : Nat} {lexemes : List Lexeme} (h : Stops level lexemes)
    (hle : level ≤ level') : Stops level' lexemes :=
  fun op hop => Nat.lt_of_lt_of_le (h op hop) hle

theorem stops_seven (lexemes : List Lexeme) : Stops 7 lexemes :=
  fun op _ => Nat.lt_succ_of_le op.precedence_le_six

theorem readLoop_cases (level : Nat) (left : Expr) (lexemes : List Lexeme) :
    m.readLoop source level left lexemes = .ok (left, 0) ∨
      ∃ lexeme rest op, lexemes = lexeme :: rest ∧ lexeme.binaryOp? = some op ∧
        m.takes level op = true := by
  cases lexemes with
  | nil => exact .inl (by rw [readLoop])
  | cons lexeme rest =>
    cases hop : lexeme.binaryOp?.filter (m.takes level) with
    | none => exact .inl (by rw [readLoop, hop])
    | some op =>
      obtain ⟨hop, htakes⟩ := Option.filter_eq_some_iff.1 hop
      exact .inr ⟨lexeme, rest, op, rfl, hop, htakes⟩

theorem readLoop_of_stops {level : Nat} {lexemes : List Lexeme} (h : Stops level lexemes)
    (hm : ∀ op, m.takes level op = true → level ≤ op.precedence) (left : Expr) :
    m.readLoop source level left lexemes = .ok (left, 0) := by
  rcases readLoop_cases m source level left lexemes with
    hr | ⟨lexeme, rest, op, rfl, hop, htakes⟩
  · exact hr
  · have hlt := h op hop
    have hle := hm op htakes
    omega

theorem readLoop_of_takes {level : Nat} {lexeme : Lexeme} {op : BinaryOp}
    (hop : lexeme.binaryOp? = some op) (h : m.takes level op = true) (left : Expr)
    (rest : List Lexeme) :
    m.readLoop source level left (lexeme :: rest) =
      ((m.read source (m.above level op) rest).andThen rest fun right =>
        m.readLoop source level (.binary source.line op left right)).after 1 := by
  rw [readLoop, hop, Option.filter_some, if_pos h]
  simp only
  rcases m.read source (m.above level op) rest with misfit | ⟨right, n⟩
  · rfl
  · exact (Reading.after_after 1 n _).symm

theorem climbing_takes {level : Nat} {op : BinaryOp} :
    climbing.takes level op = true ↔ level ≤ op.precedence := by
  simp [climbing]

theorem layered_takes {level : Nat} {op : BinaryOp} :
    layered.takes level op = true ↔ op.precedence = level := by
  simp [layered, BinaryOp.mem_atLevel]

theorem climbing_readLoop_of_stops {level : Nat} {lexemes : List Lexeme}
    (h : Stops level lexemes) (left : Expr) :
    climbing.readLoop source level left lexemes = .ok (left, 0) :=
  readLoop_of_stops climbing source h (fun _ => climbing_takes.1) left

/-- The climbing reader reads a unary operand and goes on in its loop, at every level. -/
theorem climbing_read (level : Nat) (lexemes : List Lexeme) :
    climbing.read source level lexemes =
      (climbing.readUnary source lexemes).andThen lexemes (climbing.readLoop source level) := by
  rcases Nat.lt_or_ge level 7 with hlt | hge
  · rw [read_of_lt _ _ hlt, show climbing.inner level = 7 from rfl,
      read_of_ge _ _ (Nat.le_refl 7)]
  · rw [read_of_ge _ _ hge]
    rcases climbing.readUnary source lexemes with misfit | ⟨operand, n⟩
    · rfl
    · rw [Reading.andThen, climbing_readLoop_of_stops source ((stops_seven _).mono hge)]
      rfl

theorem stops_of_readLoop {level : Nat} {left e : Expr} {lexemes : List Lexeme} {n : Nat}
    (h : climbing.readLoop source level left lexemes = .ok (e, n)) :
    Stops level (lexemes.drop n) := by
  induction hl : lexemes.length using Nat.strong_induction_on
    generalizing lexemes left n with
  | _ length ih =>
    rcases stops_or level lexemes with hs | ⟨lexeme, rest, op, rfl, hop, hle⟩
    · rw [climbing_readLoop_of_stops source hs] at h
      cases h
      exact hs
    · rw [readLoop_of_takes _ _ hop (climbing_takes.2 hle)] at h
      obtain ⟨k, hk, rfl⟩ := Reading.after_eq_ok h
      obtain ⟨right, j, i, -, hi, rfl⟩ := Reading.andThen_eq_ok hk
      have hshort : (rest.drop j).length < length := by
        rw [← hl, List.length_drop, List.length_cons]
        omega
      have hstop := ih _ hshort hi rfl
      rwa [List.drop_drop, ← List.drop_succ_cons, Nat.add_comm (j + i) 1] at hstop

theorem stops_of_read {level : Nat} {e : Expr} {lexemes : List Lexeme} {n : Nat}
    (h : climbing.read source level lexemes = .ok (e, n)) : Stops level (lexemes.drop n) := by
  rw [climbing_read] at h
  obtain ⟨operand, k, j, -, hj, rfl⟩ := Reading.andThen_eq_ok h
  rw [← List.drop_drop]
  exact stops_of_readLoop source hj

/-! ### One loop or one for each level -/

def AgreeBelow (length : Nat) : Prop :=
  ∀ level lexemes, lexemes.length < length →
    climbing.read source level lexemes = layered.read source level lexemes

variable {source}

theorem andThen_readLoop_of_stops {level : Nat} {lexemes : List Lexeme}
    (h : Stops level lexemes) (left : Expr) (f : Expr → List Lexeme → Reading Expr) :
    (climbing.readLoop source level left lexemes).andThen lexemes f = f left lexemes := by
  rw [climbing_readLoop_of_stops source h, Reading.andThen, Reading.after_zero, List.drop_zero]

theorem AgreeBelow.readLoop {length : Nat} (h : AgreeBelow source length) (level : Nat)
    (left : Expr) (lexemes : List Lexeme) (hl : lexemes.length ≤ length) :
    climbing.readLoop source level left lexemes =
      (climbing.readLoop source (level + 1) left lexemes).andThen lexemes
        (layered.readLoop source level) := by
  induction hn : lexemes.length using Nat.strong_induction_on generalizing lexemes left with
  | _ size ih =>
    have behind : ∀ (left : Expr) (rest : List Lexeme) (n : Nat), rest.length < size →
        climbing.readLoop source level left (rest.drop n) =
          (climbing.readLoop source (level + 1) left (rest.drop n)).andThen (rest.drop n)
            (layered.readLoop source level) := by
      intro left rest n hr
      have hle : (rest.drop n).length ≤ rest.length := by
        rw [List.length_drop]
        omega
      exact ih _ (by omega) left _ (by omega) rfl
    rcases stops_or (level + 1) lexemes with hs | ⟨lexeme, rest, op, rfl, hop, hle⟩
    · rw [andThen_readLoop_of_stops hs]
      rcases stops_or level lexemes with hs' | ⟨lexeme, rest, op, rfl, hop, hle⟩
      · rw [climbing_readLoop_of_stops source hs',
          readLoop_of_stops layered source hs' (fun op ht => (layered_takes.1 ht).ge)]
      · -- An operator of the level itself: behind its right operand the loop above stops.
        obtain rfl : op.precedence = level := by
          have := hs op hop
          omega
        rw [List.length_cons] at hl hn
        rw [readLoop_of_takes _ _ hop (climbing_takes.2 hle),
          readLoop_of_takes _ _ hop (layered_takes.2 rfl),
          show layered.above op.precedence op = climbing.above op.precedence op from rfl,
          ← h _ rest (by omega)]
        congr 1
        refine Reading.andThen_congr fun right n hr => ?_
        have hstop : Stops (op.precedence + 1) (rest.drop n) := stops_of_read source hr
        rw [behind _ rest n (by omega), andThen_readLoop_of_stops hstop]
    · -- A tighter operator is taken by the loop above as well.
      rw [List.length_cons] at hl hn
      rw [readLoop_of_takes _ _ hop (climbing_takes.2 (by omega)),
        readLoop_of_takes _ _ hop (climbing_takes.2 hle), Reading.andThen_after,
        List.drop_one, List.tail_cons, Reading.andThen_andThen,
        show climbing.above (level + 1) op = climbing.above level op from rfl]
      congr 1
      exact Reading.andThen_congr fun right n _ => behind _ rest n (by omega)

theorem AgreeBelow.readArguments {length : Nat} (h : AgreeBelow source length)
    (lexemes : List Lexeme) (hl : lexemes.length < length) :
    climbing.readArguments source lexemes = layered.readArguments source lexemes := by
  induction hn : lexemes.length using Nat.strong_induction_on generalizing lexemes with
  | _ n ih =>
    rw [Method.readArguments, Method.readArguments, h 1 lexemes hl]
    rcases layered.read source 1 lexemes with misfit | ⟨arg, k⟩
    · rfl
    · simp only
      split
      · rfl
      · split
        · rename_i hcomma
          have hshort := length_drop_of_begins hcomma
          rw [ih _ (by omega) _ (by omega) rfl]
        · rfl

theorem AgreeBelow.readPrimary {lexeme : Lexeme} {rest : List Lexeme}
    (h : AgreeBelow source (rest.length + 1)) :
    climbing.readPrimary source lexeme rest = layered.readPrimary source lexeme rest := by
  have hcall (name : String) :
      climbing.readCall source name rest = layered.readCall source name rest := by
    rw [Method.readCall, Method.readCall,
      h.readArguments (rest.drop 1) (by rw [List.length_drop]; omega)]
  rw [Method.readPrimary, Method.readPrimary, h 1 rest (by omega)]
  simp only [hcall]

theorem AgreeBelow.readUnary {lexemes : List Lexeme} (h : AgreeBelow source lexemes.length) :
    climbing.readUnary source lexemes = layered.readUnary source lexemes := by
  cases lexemes with
  | nil => rw [Method.readUnary, Method.readUnary]
  | cons lexeme rest =>
    have hrest := h 7 rest (Nat.lt_succ_self _)
    rw [read_of_ge _ _ (Nat.le_refl 7), read_of_ge _ _ (Nat.le_refl 7)] at hrest
    rw [Method.readUnary, Method.readUnary, hrest, h.readPrimary]

theorem AgreeBelow.read {lexemes : List Lexeme} (h : AgreeBelow source lexemes.length)
    (level : Nat) :
    climbing.read source level lexemes = layered.read source level lexemes := by
  rcases Nat.lt_or_ge level 7 with hlt | hge
  · have hinner := h.read (level + 1)
    rw [read_of_lt layered _ hlt, show layered.inner level = level + 1 from rfl, ← hinner,
      climbing_read, climbing_read, Reading.andThen_andThen]
    refine Reading.andThen_congr fun operand n _ => ?_
    exact h.readLoop level operand _ (by rw [List.length_drop]; omega)
  · rw [read_of_ge _ _ hge, read_of_ge _ _ hge, h.readUnary]
termination_by 7 - level

variable (source)

/-- One loop for all levels reads the same as one loop for each level. -/
theorem read_climbing_eq_layered (level : Nat) (lexemes : List Lexeme) :
    climbing.read source level lexemes = layered.read source level lexemes := by
  induction hl : lexemes.length using Nat.strong_induction_on generalizing level lexemes with
  | _ length ih =>
    have h : AgreeBelow source lexemes.length :=
      fun level' shorter hs => ih _ (hl ▸ hs) level' shorter rfl
    exact h.read level

end Method

end Expr

end Dialogue
