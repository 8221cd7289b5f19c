import Dialogue.Proofs.Partition
import Dialogue.Statement.Item

/-!
# Where an expression goes wrong

The reader of an expression fails at the first lexeme that it cannot take, or at the end
of the source (`misfit_readOperand`). Both are told by their byte, which lies on a border
between characters of the source. So an error inside a command is told so many columns to
the right of the command's text as there are bytes in front of it (`Token.within_readDirective`).
-/

namespace Dialogue

theorem eq_error_of_map {ε α β : Type} {x : Except ε α} {f : α → β} {e : ε}
    (h : x.map f = .error e) : x = .error e := by
  cases x with
  | error e' =>
    cases h
    rfl
  | ok a => cases h

namespace Expr

/-- The misfit is the first of some last lexemes, or the end behind them. -/
def Source.Blames (source : Source) (lexemes : List Lexeme) (m : Misfit) : Prop :=
  ∃ rest, rest <:+ lexemes ∧ m = source.misfit m.expected rest

section

variable {source : Source} {m : Misfit}

theorem Source.blames_misfit (expected : Expectation) (lexemes : List Lexeme) :
    source.Blames lexemes (source.misfit expected lexemes) := by
  refine ⟨lexemes, List.suffix_refl lexemes, ?_⟩
  cases lexemes <;> rfl

theorem Source.Blames.cons {rest : List Lexeme} (h : source.Blames rest m) (lexeme : Lexeme) :
    source.Blames (lexeme :: rest) m := by
  obtain ⟨last, hlast, hm⟩ := h
  exact ⟨last, hlast.trans (List.suffix_cons lexeme rest), hm⟩

end

mutual

theorem misfit_readOperand (source : Source) (stack : List Pending) : ∀ (lexemes : List Lexeme)
    (m : Misfit), readOperand source stack lexemes = .error m → source.Blames lexemes m
  | [], m, h => by
    rw [readOperand] at h
    cases h
    exact source.blames_misfit _ _
  | lexeme :: rest, m, h => by
    rw [readOperand] at h
    split at h
    · exact (misfit_readOperator source stack _ rest m h).cons lexeme
    · exact (misfit_readOperator source stack _ rest m h).cons lexeme
    · exact (misfit_readArguments source stack _ rest m h).cons lexeme
    · exact (misfit_readOperand source _ rest m h).cons lexeme
    · exact (misfit_readOperand source _ rest m h).cons lexeme
    · exact (misfit_readOperand source _ rest m h).cons lexeme
    · cases h
      exact source.blames_misfit _ _

theorem misfit_readArguments (source : Source) (stack : List Pending) (name : String) :
    ∀ (lexemes : List Lexeme) (m : Misfit), readArguments source stack name lexemes = .error m →
    source.Blames lexemes m
  | [], m, h => by
    rw [readArguments] at h
    cases h
    exact source.blames_misfit _ _
  | [lexeme], m, h => by
    rw [readArguments] at h
    split at h
    · exact (misfit_readOperand source _ [] m h).cons lexeme
    · cases h
      exact source.blames_misfit _ _
  | lexeme :: next :: rest, m, h => by
    rw [readArguments] at h
    split at h
    · split at h
      · exact ((misfit_readOperator source stack _ rest m h).cons next).cons lexeme
      · exact (misfit_readOperand source _ (next :: rest) m h).cons lexeme
    · cases h
      exact source.blames_misfit _ _

theorem misfit_readOperator (source : Source) (stack : List Pending) (operand : Expr) :
    ∀ (lexemes : List Lexeme) (m : Misfit), readOperator source stack operand lexemes = .error m →
    source.Blames lexemes m
  | [], m, h => by
    rw [readOperator] at h
    split at h
    · cases h
    · cases h
      exact source.blames_misfit _ _
  | lexeme :: rest, m, h => by
    rw [readOperator] at h
    split at h
    · split at h
      · exact (misfit_readOperator source _ _ rest m h).cons lexeme
      · exact (misfit_readOperator source _ _ rest m h).cons lexeme
      · cases h
        exact source.blames_misfit _ _
    · split at h
      · exact (misfit_readOperand source _ rest m h).cons lexeme
      · cases h
        exact source.blames_misfit _ _
    · split at h
      · exact (misfit_readOperand source _ rest m h).cons lexeme
      · cases h
        exact source.blames_misfit _ _
    · cases h
      exact source.blames_misfit _ _

end

theorem misfit_assignmentOfLexemes (source : Source) (lexemes : List Lexeme) (m : Misfit)
    (h : assignmentOfLexemes source lexemes = .error m) : source.Blames lexemes m := by
  unfold assignmentOfLexemes at h
  split at h
  · rename_i target start stop rest
    split at h
    · rename_i s start' stop' value
      split at h
      · exact ((misfit_readOperand source [] value m (eq_error_of_map h)).cons _).cons _
      · cases h
        exact (source.blames_misfit _ _).cons _
    · cases h
      exact (source.blames_misfit _ _).cons _
  · cases h
    exact source.blames_misfit _ _

/-- So many bytes of a text are whole characters. -/
def Border (cs : List Char) (n : Nat) : Prop :=
  ∃ before after, cs = before ++ after ∧ n = Text.byteLength before

theorem border_misfit {text : List Char} {lexemes : List Lexeme} (hs : scan text = .ok lexemes)
    {line : Nat} {m : Misfit} (h : Source.Blames ⟨line, Text.byteLength text⟩ lexemes m) :
    Border text m.offset := by
  obtain ⟨rest, hrest, hm⟩ := h
  rw [hm]
  cases rest with
  | nil => exact ⟨text, [], (List.append_nil text).symm, rfl⟩
  | cons lexeme rest =>
    have hcuts := cuts_of_scanFrom 0 text lexemes hs
    obtain ⟨before, covered, behind, htext, hstart, -⟩ :=
      hcuts.longest lexeme (hrest.subset List.mem_cons_self)
    exact ⟨before, covered ++ behind, htext, by rw [Source.misfit, hstart, Nat.zero_add]⟩

theorem border_readSource {α : Type} {read : Source → List Lexeme → Except Misfit α}
    (hread : ∀ source lexemes m, read source lexemes = .error m → source.Blames lexemes m)
    {origin : Position} {text : List Char} {e : SyntaxError}
    (h : readSource read origin text = .error e) :
    ∃ n, Border text n ∧ e.position = origin.right n := by
  unfold readSource at h
  split at h
  · rename_i failure hs
    cases h
    obtain ⟨before, rest, htext, hstart, -⟩ := (fails_of_scanFrom hs).1.located
    exact ⟨failure.start, ⟨before, _, htext, by rw [hstart, Nat.zero_add]⟩, rfl⟩
  · rename_i lexemes hs
    split at h
    · rename_i m hm
      cases h
      exact ⟨m.offset, border_misfit hs (hread _ _ m hm), rfl⟩
    · cases h

end Expr

theorem Position.right_right (p : Position) (n k : Nat) :
    (p.right n).right k = p.right (n + k) := by
  rw [right, right, right, Nat.add_assoc]

namespace Token

/-- The position is told inside the text of a token, by the bytes in front of it. -/
def Within (t : Token) (p : Position) : Prop :=
  ∃ n, Expr.Border t.text n ∧ p = t.position.right n

variable {t : Token} {e : SyntaxError}

theorem within_positionAt (t : Token) (n : Nat) : t.Within (t.positionAt n) :=
  ⟨_, ⟨t.text.take n, t.text.drop n, (List.take_append_drop n t.text).symm, rfl⟩, rfl⟩

theorem within_readSource {α : Type} {read : Expr.Source → List Expr.Lexeme → Except Expr.Misfit α}
    (hread : ∀ source lexemes m, read source lexemes = .error m → source.Blames lexemes m) {n : Nat}
    (h : Expr.readSource read (t.positionAt n) (t.text.drop n) = .error e) :
    t.Within e.position := by
  obtain ⟨k, ⟨before, after, hdrop, rfl⟩, hposition⟩ := Expr.border_readSource hread h
  refine ⟨Text.byteLength (t.text.take n ++ before), ⟨_, after, ?_, rfl⟩, ?_⟩
  · rw [List.append_assoc, ← hdrop, List.take_append_drop]
  · rw [hposition, positionAt, Position.right_right, Text.byteLength_append]

theorem within_expressionAt {n : Nat} (h : t.expressionAt n = .error e) : t.Within e.position :=
  within_readSource (fun source => Expr.misfit_readOperand source []) h

theorem within_elseClause {n : Nat} (h : elseClause t n = .error e) : t.Within e.position := by
  unfold elseClause at h
  simp only at h
  split at h
  · cases h
  · split at h
    · exact within_expressionAt (eq_error_of_map h)
    · cases h
      exact t.within_positionAt _

/-- An error of a command is told inside its text. -/
theorem within_readDirective {line : Nat} (h : readDirective line t = .error e) :
    t.Within e.position := by
  unfold readDirective at h
  simp only at h
  split at h
  · exact within_readSource Expr.misfit_assignmentOfLexemes (eq_error_of_map h)
  · exact within_expressionAt (eq_error_of_map h)
  · exact within_expressionAt (eq_error_of_map h)
  · exact within_elseClause (eq_error_of_map h)
  · split at h
    · cases h
    · cases h
      exact t.within_positionAt _
  · cases h

end Token

end Dialogue
