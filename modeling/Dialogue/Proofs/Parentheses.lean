import Dialogue.Proofs.Garbling
import Dialogue.Proofs.Grammar

/-!
# The fewest parentheses

No text of an expression opens fewer parentheses than its canonical one. A child that
the canonical text encloses binds more loosely than the place it stands at, and a
derivation brings it there only through a group.
-/

namespace Dialogue

namespace Expr

/-- How many parentheses are opened, those of calls included. -/
def openings (ts : List Token) : Nat := ts.count (.symbol .openParen)

@[simp]
theorem openings_nil : openings [] = 0 := rfl

@[simp]
theorem openings_append (ts us : List Token) : openings (ts ++ us) = openings ts + openings us :=
  List.count_append

@[simp]
theorem openings_cons (t : Token) (ts : List Token) :
    openings (t :: ts) = openings ts + if t = .symbol .openParen then 1 else 0 := by
  rw [openings, List.count_cons]
  simp only [beq_iff_eq, openings]

@[simp]
theorem token_ne_openParen (op : BinaryOp) : op.token ≠ .openParen := by
  cases op <;> decide

@[simp]
theorem sign_ne_openParen (op : UnaryOp) : op.token ≠ .openParen := by
  cases op <;> decide

@[simp]
theorem written_ne_openParen (value : Value) :
    (Token.literal value).written ≠ .symbol .openParen := by
  unfold Token.written
  intro h
  split at h
  · split at h <;> cases h
  · cases h

theorem openings_enclosed (needed : Bool) (ts : List Token) :
    openings (enclosed needed ts) = openings ts + if needed then 1 else 0 := by
  cases needed with
  | false => rfl
  | true => simp [enclosed]

theorem openings_le_enclosed (needed : Bool) (ts : List Token) :
    openings ts ≤ openings (enclosed needed ts) := by
  rw [openings_enclosed]
  omega

theorem openings_enclosed_le (needed : Bool) (ts : List Token) :
    openings (enclosed needed ts) ≤ openings ts + 1 := by
  rw [openings_enclosed]
  split <;> omega

/-- At a looser level an expression needs no more parentheses. -/
theorem openings_enclosed_mono {level level' : Nat} (e : Expr) (h : level ≤ level') :
    openings (enclosed (e.precedence < level) e.tokens) ≤
      openings (enclosed (e.precedence < level') e.tokens) := by
  simp only [openings_enclosed, decide_eq_true_eq]
  split <;> split <;> omega

/-! ### Derivations -/

theorem openings_group {e : Expr} {ts : List Token} {needed : Bool}
    (h : openings (enclosed needed e.tokens) ≤ openings ts) (level : Nat) :
    openings (enclosed (e.precedence < level) e.tokens) ≤
      openings (.symbol .openParen :: (ts ++ [.symbol .closeParen])) := by
  have hinner := openings_le_enclosed needed e.tokens
  have houter := openings_enclosed_le (e.precedence < level) e.tokens
  have hgroup : openings (.symbol .openParen :: (ts ++ [.symbol .closeParen])) =
      openings ts + 1 := by simp
  omega

theorem openings_binary {op : BinaryOp} {left right : Expr} {ts us : List Token} (line : Nat)
    (hleft : openings (enclosed (left.precedence < op.precedence) left.tokens) ≤ openings ts)
    (hright : openings (enclosed (right.precedence < op.precedence + 1) right.tokens) ≤
      openings us) :
    openings (enclosed (op.precedence < op.precedence) (Expr.binary line op left right).tokens) ≤
      openings (ts ++ .symbol op.token :: us) := by
  simp only [Nat.lt_succ_iff] at hright
  simp only [tokens, openings_enclosed, openings_append, openings_cons, Token.symbol.injEq,
    token_ne_openParen, if_false, Nat.lt_irrefl] at hleft hright ⊢
  simp only [decide_false, Bool.false_eq_true, if_false]
  omega

theorem openings_more {e : Expr} {es : List Expr} {ts us : List Token} {needed : Bool}
    (hne : es ≠ []) (he : openings (enclosed needed e.tokens) ≤ openings ts)
    (hes : openings (argumentTokens es) ≤ openings us) :
    openings (argumentTokens (e :: es)) ≤ openings (ts ++ .symbol .comma :: us) := by
  have hinner := openings_le_enclosed needed e.tokens
  rw [argumentTokens]
  · simp only [openings_append, openings_cons]
    omega
  · exact hne

theorem DerivesArguments.ne_nil {line : Nat} {ts : List Token} {es : List Expr}
    (h : DerivesArguments line ts es) : es ≠ [] := by
  cases h <;> nofun

mutual

/-- A derivation at a level opens at least the parentheses that the expression is written with
at that level. -/
theorem Derives.openings_le {line : Nat} : ∀ {level : Nat} {ts : List Token} {e : Expr},
    Derives line level ts e → openings (enclosed (e.precedence < level) e.tokens) ≤ openings ts
  | _, _, _, .literal value => by simp [enclosed, precedence, tokens]
  | _, _, _, .var name => by simp [enclosed, precedence, tokens]
  | _, _, _, .callEmpty name => by simp [enclosed, precedence, tokens, argumentTokens]
  | _, _, _, .call name arguments => by
    have hargs := arguments.openings_le
    simpa [enclosed, precedence, tokens] using hargs
  | _, _, _, .group nested => openings_group nested.openings_le 8
  | _, _, _, .unary op operand => by
    have hoperand := operand.openings_le
    simpa [enclosed, precedence, tokens] using hoperand
  | _, _, _, .binary hop first second => by
    have hfirst := first.openings_le
    have hsecond := second.openings_le
    obtain rfl := (BinaryOp.mem_atLevel _ _).1 hop
    exact openings_binary line hfirst hsecond
  | _, _, _, .tighter nested =>
    Nat.le_trans (openings_enclosed_mono _ (Nat.le_succ _)) nested.openings_le

theorem DerivesArguments.openings_le {line : Nat} : ∀ {ts : List Token} {es : List Expr},
    DerivesArguments line ts es → openings (argumentTokens es) ≤ openings ts
  | _, _, .one last => Nat.le_trans (openings_le_enclosed _ _) last.openings_le
  | _, _, .more first others => openings_more others.ne_nil first.openings_le others.openings_le

end

mutual

theorem Derives.atLine_eq {line : Nat} : ∀ {level : Nat} {ts : List Token} {e : Expr},
    Derives line level ts e → e.atLine line = e
  | _, _, _, .literal _ => rfl
  | _, _, _, .var _ => rfl
  | _, _, _, .callEmpty _ => rfl
  | _, _, _, .call _ arguments => by rw [atLine, arguments.atLine_eq]
  | _, _, _, .group nested => nested.atLine_eq
  | _, _, _, .unary _ operand => by rw [atLine, operand.atLine_eq]
  | _, _, _, .binary _ first second => by rw [atLine, first.atLine_eq, second.atLine_eq]
  | _, _, _, .tighter nested => nested.atLine_eq

theorem DerivesArguments.atLine_eq {line : Nat} : ∀ {ts : List Token} {es : List Expr},
    DerivesArguments line ts es → argumentsAtLine line es = es
  | _, _, .one last => by rw [argumentsAtLine, argumentsAtLine, last.atLine_eq]
  | _, _, .more first others => by rw [argumentsAtLine, first.atLine_eq, others.atLine_eq]

end

theorem openings_tokens_le {source : Source} {lexemes : List Lexeme} {e : Expr}
    (h : ofLexemes source lexemes = .ok e) :
    openings e.tokens ≤ openings (lexemes.map Lexeme.token) :=
  Nat.le_trans (openings_le_enclosed _ _) (derives_of_ofLexemes h).openings_le

/-- However an expression is written, its canonical text opens no more parentheses, and it is read
as the same expression unless that has an infinite number. -/
theorem openings_format_le {text : String} {line : Nat} {e : Expr}
    (h : parse text line = .ok e) :
    ∃ lexemes written, scan text.toList = .ok lexemes ∧ scan e.format.toList = .ok written ∧
      openings (written.map Lexeme.token) ≤ openings (lexemes.map Lexeme.token) ∧
      (e.finite = true → parse e.format line = .ok e) := by
  have hspell : e.spellable = true := spellable_parseAt h
  obtain ⟨lexemes, hscan, hread⟩ := readSource_eq_ok h
  obtain ⟨written, hwritten, hscan'⟩ := scan_of_spells (spells_chars e [] hspell ends_nil)
  refine ⟨lexemes, written, hscan, ?_, ?_, fun hfinite => ?_⟩
  · rw [format, String.toList_ofList]
    exact hscan'
  · rw [hwritten]
    exact openings_tokens_le hread
  · rw [parse_format_of_spellable hspell hfinite, (derives_of_ofLexemes hread).atLine_eq]

/-- A sum times a variable. -/
def scaledSum : Expr :=
  .binary 1 .mul (.binary 1 .add (.var 1 "a") (.var 1 "b")) (.var 1 "c")

/-- Of five parentheses around a sum and its parts, only the one around the sum remains. -/
theorem openings_format_le_scaledSum :
    parse "(($a) + (($b))) * ($c)" 1 = .ok scaledSum ∧ scaledSum.finite = true ∧
    scaledSum.format = "($a + $b) * $c" ∧
    ∃ lexemes written, scan "(($a) + (($b))) * ($c)".toList = .ok lexemes ∧
      scan scaledSum.format.toList = .ok written ∧
      openings (written.map Lexeme.token) ≤ openings (lexemes.map Lexeme.token) ∧
      (scaledSum.finite = true → parse scaledSum.format 1 = .ok scaledSum) :=
  ⟨by cbv, by decide, by cbv, openings_format_le (by cbv)⟩

end Expr

end Dialogue
