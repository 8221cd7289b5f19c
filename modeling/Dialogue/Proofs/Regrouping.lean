import Dialogue.Proofs.Spelling

/-!
# Reading the tokens of an expression

The parentheses that an expression is written with bring its tree back. Behind the
tokens of an expression the stack of open constructs holds operators that still
wait for their right operand; completed at any level that the expression binds at
least as tightly as, they give the expression itself on top of the stack from
before (`readOperand_tokens`). So the tree does not depend on what surrounds it.
-/

namespace Dialogue

namespace Expr

mutual

def atLine (line : Nat) : Expr → Expr
  | .literal _ value => .literal line value
  | .var _ name => .var line name
  | .call _ name args => .call line name (argumentsAtLine line args)
  | .unary _ op operand => .unary line op (operand.atLine line)
  | .binary _ op left right => .binary line op (left.atLine line) (right.atLine line)

def argumentsAtLine (line : Nat) : List Expr → List Expr
  | [] => []
  | e :: es => e.atLine line :: argumentsAtLine line es

end

mutual

theorem atLine_atLine (n m : Nat) : ∀ e : Expr, (e.atLine m).atLine n = e.atLine n
  | .literal _ _ => rfl
  | .var _ _ => rfl
  | .call _ name args => by
    rw [atLine, atLine, atLine, argumentsAtLine_argumentsAtLine n m args]
  | .unary _ op operand => by
    rw [atLine, atLine, atLine, atLine_atLine n m operand]
  | .binary _ op left right => by
    rw [atLine, atLine, atLine, atLine_atLine n m left, atLine_atLine n m right]

theorem argumentsAtLine_argumentsAtLine (n m : Nat) : ∀ es : List Expr,
    argumentsAtLine n (argumentsAtLine m es) = argumentsAtLine n es
  | [] => rfl
  | e :: es => by
    rw [argumentsAtLine, argumentsAtLine, argumentsAtLine, atLine_atLine n m e,
      argumentsAtLine_argumentsAtLine n m es]

end

/-- Nothing on the stack binds as tightly as an operator of this level or a tighter one. -/
def Keeps (line level : Nat) (stack : List Pending) : Prop :=
  ∀ tighter, level ≤ tighter → ∀ e, complete line tighter stack e = (stack, e)

theorem keeps_nil (line level : Nat) : Keeps line level [] := by
  intro tighter _ e
  rfl

theorem keeps_group (line level : Nat) (stack : List Pending) :
    Keeps line level (.group :: stack) := by
  intro tighter _ e
  rfl

theorem keeps_call (line level : Nat) (name : String) (args : List Expr) (stack : List Pending) :
    Keeps line level (.call name args :: stack) := by
  intro tighter _ e
  rfl

theorem keeps_right (line level : Nat) (left : Expr) (op : BinaryOp) (stack : List Pending)
    (h : op.precedence < level) : Keeps line level (.right left op :: stack) := by
  intro tighter ht e
  rw [complete, if_neg (by omega)]

theorem Keeps.tighter {line level tighter : Nat} {stack : List Pending}
    (h : Keeps line level stack) (ht : level ≤ tighter) : Keeps line tighter stack :=
  fun t hle e => h t (by omega) e

variable (source : Source)

theorem readOperand_unary (stack : List Pending) (lexeme : Lexeme) (rest : List Lexeme)
    (op : UnaryOp) (h : lexeme.token = .symbol op.token) :
    readOperand source stack (lexeme :: rest) =
      readOperand source (.operand op :: stack) rest := by
  cases op with
  | negate => rw [readOperand, h]; rfl
  | not => rw [readOperand, h]; rfl

theorem readOperator_binary (stack stack' : List Pending) (e e' : Expr) (lexeme : Lexeme)
    (rest : List Lexeme) (op : BinaryOp) (h : lexeme.token = .symbol op.token)
    (hc : complete source.line op.precedence stack e = (stack', e')) :
    readOperator source stack e (lexeme :: rest) =
      readOperand source (.right e' op :: stack') rest := by
  cases op <;> (rw [readOperator, h]; simp only [BinaryOp.token, Symbol.binaryOp?, hc])

theorem readOperator_close (stack below : List Pending) (e e' : Expr) (lexeme : Lexeme)
    (rest : List Lexeme) (h : lexeme.token = .symbol .closeParen)
    (hc : complete source.line 0 stack e = (.group :: below, e')) :
    readOperator source stack e (lexeme :: rest) = readOperator source below e' rest := by
  rw [readOperator, h]
  simp only [hc]

theorem readOperator_close_call (stack below : List Pending) (e e' : Expr) (name : String)
    (args : List Expr) (lexeme : Lexeme) (rest : List Lexeme)
    (h : lexeme.token = .symbol .closeParen)
    (hc : complete source.line 0 stack e = (.call name args :: below, e')) :
    readOperator source stack e (lexeme :: rest) =
      readOperator source below (.call source.line name (args ++ [e'])) rest := by
  rw [readOperator, h]
  simp only [hc]

theorem readOperator_comma (stack below : List Pending) (e e' : Expr) (name : String)
    (args : List Expr) (lexeme : Lexeme) (rest : List Lexeme) (h : lexeme.token = .symbol .comma)
    (hc : complete source.line 0 stack e = (.call name args :: below, e')) :
    readOperator source stack e (lexeme :: rest) =
      readOperand source (.call name (args ++ [e']) :: below) rest := by
  rw [readOperator, h]
  simp only [hc]

/-! ### Whole expressions -/

/-- Reading the lexemes, whatever follows them, comes to where `e` stands on the stack, once it
is completed at a level up to `bound`. -/
def Yields (stack : List Pending) (lexemes : List Lexeme) (bound : Nat) (e : Expr) : Prop :=
  ∀ rest, ∃ stack' e', readOperand source stack (lexemes ++ rest) =
      readOperator source stack' e' rest ∧
    ∀ level, level ≤ bound →
      complete source.line level stack' e' = complete source.line level stack e

def Reads (e : Expr) : Prop :=
  ∀ stack lexemes, lexemes.map Lexeme.token = e.tokens →
    (e.precedence ≤ 6 → Keeps source.line e.precedence stack) →
    Yields source stack lexemes e.precedence (e.atLine source.line)

variable {source}

theorem Yields.weaken {stack : List Pending} {lexemes : List Lexeme} {bound less : Nat} {e : Expr}
    (h : Yields source stack lexemes bound e) (hl : less ≤ bound) :
    Yields source stack lexemes less e := by
  intro rest
  obtain ⟨stack', e', hr, hc⟩ := h rest
  exact ⟨stack', e', hr, fun level hle => hc level (by omega)⟩

/-- Parentheses shield an expression from the stack. -/
theorem Reads.enclosed {e : Expr} (he : Reads source e) (needed : Bool) (bound : Nat)
    (stack : List Pending) (lexemes : List Lexeme)
    (hl : lexemes.map Lexeme.token = enclosed needed e.tokens)
    (hb : needed = false → bound ≤ e.precedence)
    (hk : needed = false → e.precedence ≤ 6 → Keeps source.line e.precedence stack) :
    Yields source stack lexemes bound (e.atLine source.line) := by
  cases needed with
  | false => exact (he stack lexemes hl (hk rfl)).weaken (hb rfl)
  | true =>
    obtain ⟨first, others, rfl, hfirst, hothers⟩ := List.map_eq_cons_iff.1 hl
    obtain ⟨inner, last, rfl, hinner, hlast⟩ := List.map_eq_append_iff.1 hothers
    obtain ⟨close, rfl, hclose⟩ := List.map_eq_singleton_iff.1 hlast
    intro rest
    obtain ⟨stack', e', hr, hc⟩ := he (.group :: stack) inner hinner
      (fun _ => keeps_group _ _ _) ([close] ++ rest)
    have h0 := hc 0 (by omega)
    rw [keeps_group source.line 0 stack 0 (Nat.le_refl 0)] at h0
    refine ⟨stack, e.atLine source.line, ?_, fun _ _ => rfl⟩
    have hopen : readOperand source stack (first :: (inner ++ [close]) ++ rest) =
        readOperand source (.group :: stack) (inner ++ ([close] ++ rest)) := by
      rw [List.cons_append, readOperand, hfirst, List.append_assoc]
    rw [hopen, hr]
    exact readOperator_close source _ _ _ _ _ _ hclose h0

theorem reads_unary {line : Nat} {op : UnaryOp} {operand : Expr} (h : Reads source operand) :
    Reads source (.unary line op operand) := by
  intro stack lexemes hl _ rest
  obtain ⟨first, others, rfl, hfirst, hothers⟩ := List.map_eq_cons_iff.1 hl
  have hb : decide (operand.precedence < 7) = false → 7 ≤ operand.precedence := by
    intro hn
    simpa using hn
  have hy := h.enclosed (operand.precedence < 7) 7 (.operand op :: stack) others hothers hb
    (fun hn hle => absurd (hb hn) (by omega))
  obtain ⟨stack', e', hr, hc⟩ := hy rest
  refine ⟨stack', e', ?_, hc⟩
  rw [List.cons_append, readOperand_unary source stack first _ op hfirst, hr]

theorem reads_binary {line : Nat} {op : BinaryOp} {left right : Expr} (hl : Reads source left)
    (hr : Reads source right) : Reads source (.binary line op left right) := by
  intro stack lexemes hlex hk rest
  have hkeeps : Keeps source.line op.precedence stack := hk op.precedence_le_six
  obtain ⟨first, others, rfl, hfirst, hothers⟩ := List.map_eq_append_iff.1 hlex
  obtain ⟨symbol, second, rfl, hsymbol, hsecond⟩ := List.map_eq_cons_iff.1 hothers
  have hbl : decide (left.precedence < op.precedence) = false →
      op.precedence ≤ left.precedence := by
    intro hn
    simpa using hn
  have hbr : decide (right.precedence ≤ op.precedence) = false →
      op.precedence < right.precedence := by
    intro hn
    simpa using hn
  -- The left operand is complete where its operator stands.
  have hyl := hl.enclosed (left.precedence < op.precedence) op.precedence stack first hfirst hbl
    (fun hn _ => hkeeps.tighter (hbl hn))
  obtain ⟨stack', e', hreadl, hcl⟩ := hyl (symbol :: second ++ rest)
  have hc := hcl op.precedence (Nat.le_refl _)
  rw [hkeeps op.precedence (Nat.le_refl _)] at hc
  have hop := readOperator_binary source stack' stack e' (left.atLine source.line) symbol
    (second ++ rest) op hsymbol hc
  -- The right operand is read on top of it.
  have hyr := hr.enclosed (right.precedence ≤ op.precedence) op.precedence
    (.right (left.atLine source.line) op :: stack) second hsecond
    (fun hn => Nat.le_of_lt (hbr hn)) (fun hn _ => keeps_right _ _ _ _ _ (hbr hn))
  obtain ⟨stack'', e'', hreadr, hcr⟩ := hyr rest
  refine ⟨stack'', e'', ?_, ?_⟩
  · rw [List.append_assoc, hreadl, List.cons_append, hop, hreadr]
  · intro level hle
    have hle' : level ≤ op.precedence := hle
    rw [hcr level hle', complete, if_pos hle']
    rfl

def ReadsArguments (source : Source) (es : List Expr) : Prop :=
  ∀ name args stack lexemes rest,
    lexemes.map Lexeme.token = argumentTokens es ++ [.symbol .closeParen] → es ≠ [] →
    readOperand source (.call name args :: stack) (lexemes ++ rest) =
      readOperator source stack
        (.call source.line name (args ++ argumentsAtLine source.line es)) rest

theorem readsArguments_singleton {e : Expr} (he : Reads source e) : ReadsArguments source [e] := by
  intro name args stack lexemes rest hl _
  obtain ⟨inner, last, rfl, hinner, hlast⟩ := List.map_eq_append_iff.1 hl
  obtain ⟨close, rfl, hclose⟩ := List.map_eq_singleton_iff.1 hlast
  obtain ⟨stack', e', hr, hc⟩ := he (.call name args :: stack) inner hinner
    (fun _ => keeps_call _ _ _ _ _) ([close] ++ rest)
  have h0 := hc 0 (by omega)
  rw [keeps_call source.line 0 name args stack 0 (Nat.le_refl 0)] at h0
  rw [List.append_assoc, hr]
  exact readOperator_close_call source _ _ _ _ _ _ _ _ hclose h0

theorem argumentTokens_cons (e e' : Expr) (es : List Expr) :
    argumentTokens (e :: e' :: es) = e.tokens ++ .symbol .comma :: argumentTokens (e' :: es) := by
  rw [argumentTokens]
  exact List.cons_ne_nil e' es

theorem readsArguments_cons {e e' : Expr} {es : List Expr} (he : Reads source e)
    (hes : ReadsArguments source (e' :: es)) : ReadsArguments source (e :: e' :: es) := by
  intro name args stack lexemes rest hl _
  rw [argumentTokens_cons, List.append_assoc] at hl
  obtain ⟨first, others, rfl, hfirst, hothers⟩ := List.map_eq_append_iff.1 hl
  obtain ⟨comma, more, rfl, hcomma, hmore⟩ := List.map_eq_cons_iff.1 hothers
  obtain ⟨stack', e'', hr, hc⟩ := he (.call name args :: stack) first hfirst
    (fun _ => keeps_call _ _ _ _ _) (comma :: more ++ rest)
  have h0 := hc 0 (by omega)
  rw [keeps_call source.line 0 name args stack 0 (Nat.le_refl 0)] at h0
  have hmore' := hes name (args ++ [e.atLine source.line]) stack more rest hmore (by simp)
  rw [List.append_assoc, hr, List.cons_append,
    readOperator_comma source _ _ _ _ _ _ _ _ hcomma h0, hmore', List.append_assoc]
  rfl

theorem enclosed_eq_cons {ts : List Token} (needed : Bool)
    (h : ∃ t us, ts = t :: us ∧ t ≠ .symbol .closeParen) :
    ∃ t us, enclosed needed ts = t :: us ∧ t ≠ .symbol .closeParen := by
  cases needed with
  | false => exact h
  | true => exact ⟨.symbol .openParen, ts ++ [.symbol .closeParen], rfl, by decide⟩

theorem tokens_eq_cons : ∀ e : Expr, ∃ t ts, e.tokens = t :: ts ∧ t ≠ .symbol .closeParen
  | .literal _ value => by
    refine ⟨(Token.literal value).written, [], rfl, ?_⟩
    unfold Token.written
    split
    · split <;> nofun
    · nofun
  | .var _ name => ⟨.var name, [], rfl, nofun⟩
  | .call _ name args => ⟨.name name, _, rfl, nofun⟩
  | .unary _ op operand => by
    refine ⟨.symbol op.token, _, rfl, ?_⟩
    cases op <;> decide
  | .binary _ op left right => by
    obtain ⟨t, us, ht, hne⟩ := enclosed_eq_cons (left.precedence < op.precedence)
      (tokens_eq_cons left)
    rw [tokens, ht]
    exact ⟨t, _, rfl, hne⟩

theorem argumentTokens_eq_cons (e : Expr) (es : List Expr) :
    ∃ t ts, argumentTokens (e :: es) = t :: ts ∧ t ≠ .symbol .closeParen := by
  obtain ⟨t, ts, ht, hne⟩ := tokens_eq_cons e
  cases es with
  | nil => exact ⟨t, ts, by rw [argumentTokens, ht], hne⟩
  | cons e' es => exact ⟨t, _, by rw [argumentTokens_cons, ht, List.cons_append], hne⟩

theorem reads_call {line : Nat} {name : String} {args : List Expr}
    (h : ReadsArguments source args) : Reads source (.call line name args) := by
  intro stack lexemes hl _ rest
  refine ⟨stack, .call source.line name (argumentsAtLine source.line args), ?_, fun _ _ => rfl⟩
  obtain ⟨first, others, rfl, hfirst, hothers⟩ := List.map_eq_cons_iff.1 hl
  obtain ⟨opening, inner, rfl, hopening, hinner⟩ := List.map_eq_cons_iff.1 hothers
  cases args with
  | nil =>
    obtain ⟨close, rfl, hclose⟩ := List.map_eq_singleton_iff.1 hinner
    simp only [List.cons_append, List.nil_append]
    rw [readOperand, hfirst]
    simp only
    rw [readArguments, if_pos hopening, if_pos hclose]
    rfl
  | cons e es =>
    have hargs := h name [] stack inner rest hinner (by simp)
    obtain ⟨t, ts, ht, hne⟩ := argumentTokens_eq_cons e es
    rw [List.append_eq, ht, List.cons_append] at hinner
    obtain ⟨next, more, rfl, hnext, hmore⟩ := List.map_eq_cons_iff.1 hinner
    have hopen : ¬next.token = .symbol .closeParen := by
      rw [hnext]
      exact hne
    simp only [List.cons_append] at hargs ⊢
    rw [readOperand, hfirst]
    simp only
    rw [readArguments, if_pos hopening, if_neg hopen, hargs]
    rfl

theorem reads_literal {line : Nat} {value : Value} (h : (Token.literal value).isFinite = true) :
    Reads source (.literal line value) := by
  intro stack lexemes hl _ rest
  obtain ⟨first, rfl, hfirst⟩ := List.map_eq_singleton_iff.1 hl
  rw [Token.written_of_isFinite _ h] at hfirst
  refine ⟨stack, .literal source.line value, ?_, fun _ _ => rfl⟩
  rw [List.singleton_append, readOperand, hfirst]

theorem reads_var {line : Nat} {name : String} : Reads source (.var line name) := by
  intro stack lexemes hl _ rest
  obtain ⟨first, rfl, hfirst⟩ := List.map_eq_singleton_iff.1 hl
  refine ⟨stack, .var source.line name, ?_, fun _ _ => rfl⟩
  rw [List.singleton_append, readOperand, hfirst]

mutual

/-- The tokens of an expression are read as that expression, on the line of the source. -/
theorem readOperand_tokens (source : Source) : ∀ e : Expr, e.finite = true → Reads source e
  | .literal _ value, h => reads_literal (by simpa [finite, leaves] using h)
  | .var _ _, _ => reads_var
  | .call _ _ args, h => by
    rw [finite, leaves, List.all_cons, Bool.and_eq_true] at h
    exact reads_call (readOperand_argumentTokens source args h.2)
  | .unary _ _ operand, h => reads_unary (readOperand_tokens source operand h)
  | .binary _ _ left right, h => by
    rw [finite, leaves, List.all_append, Bool.and_eq_true] at h
    exact reads_binary (readOperand_tokens source left h.1) (readOperand_tokens source right h.2)

theorem readOperand_argumentTokens (source : Source) : ∀ es : List Expr,
    (argumentLeaves es).all Token.isFinite = true → ReadsArguments source es
  | [], _ => fun _ _ _ _ _ _ hne => absurd rfl hne
  | [e], h => by
    rw [argumentLeaves, argumentLeaves, List.append_nil] at h
    exact readsArguments_singleton (readOperand_tokens source e h)
  | e :: e' :: es, h => by
    rw [argumentLeaves, List.all_append, Bool.and_eq_true] at h
    exact readsArguments_cons (readOperand_tokens source e h.1)
      (readOperand_argumentTokens source (e' :: es) h.2)

end

theorem ofLexemes_tokens (source : Source) (e : Expr) (hf : e.finite = true)
    (lexemes : List Lexeme) (h : lexemes.map Lexeme.token = e.tokens) :
    ofLexemes source lexemes = .ok (e.atLine source.line) := by
  obtain ⟨stack', e', hr, hc⟩ := readOperand_tokens source e hf [] lexemes h
    (fun _ => keeps_nil _ _) []
  have h0 := hc 0 (by omega)
  rw [keeps_nil source.line 0 0 (Nat.le_refl 0)] at h0
  rw [List.append_nil] at hr
  rw [ofLexemes, hr, readOperator, h0]

theorem parseAt_of_spells (e : Expr) (hf : e.finite = true) (origin : Position)
    (text : List Char) (h : Spells text e.tokens []) : parseAt origin text = .ok (e.atLine origin.line) := by
  obtain ⟨lexemes, hl, hs⟩ := scan_of_spells h
  rw [parseAt, readSource, hs]
  simp only
  rw [ofLexemes_tokens _ e hf lexemes hl]

end Expr

def AssignOp.token : AssignOp → Expr.Symbol
  | set => .assign
  | add => .plusAssign
  | sub => .minusAssign
  | mul => .starAssign
  | div => .slashAssign

theorem AssignOp.chars_token (op : AssignOp) : op.token.chars = op.symbol.toList := by
  cases op <;> rfl

theorem AssignOp.assignOp?_token (op : AssignOp) : op.token.assignOp? = some op := by
  cases op <;> rfl

namespace Expr

/-- An assignment is read if its value is read from the lexemes behind the operator. -/
theorem parseAssignmentAt_of_value (target : String) (op : AssignOp) {ts : List Token} {e : Expr}
    (origin : Position) (text : List Char)
    (h : Spells text (.var target :: .symbol op.token :: ts) [])
    (hvalue : ∀ source lexemes, source.line = origin.line → lexemes.map Lexeme.token = ts →
      ofLexemes source lexemes = .ok e) :
    parseAssignmentAt origin text = .ok ⟨target, op, e⟩ := by
  obtain ⟨lexemes, hl, hs⟩ := scan_of_spells h
  obtain ⟨⟨_, _, _⟩, others, rfl, hfirst, hothers⟩ := List.map_eq_cons_iff.1 hl
  obtain ⟨⟨_, _, _⟩, value, rfl, hsymbol, hlexemes⟩ := List.map_eq_cons_iff.1 hothers
  simp only at hfirst hsymbol
  subst hfirst hsymbol
  rw [parseAssignmentAt, readSource, hs]
  simp only [assignmentOfLexemes, AssignOp.assignOp?_token]
  rw [hvalue _ value rfl hlexemes]
  rfl

theorem parseAssignmentAt_of_spells (target : String) (op : AssignOp) (e : Expr)
    (hf : e.finite = true) (origin : Position) (text : List Char)
    (h : Spells text (.var target :: .symbol op.token :: e.tokens) []) :
    parseAssignmentAt origin text = .ok ⟨target, op, e.atLine origin.line⟩ :=
  parseAssignmentAt_of_value target op origin text h fun source lexemes hline hl => by
    rw [ofLexemes_tokens source e hf lexemes hl, hline]

end Expr

end Dialogue
