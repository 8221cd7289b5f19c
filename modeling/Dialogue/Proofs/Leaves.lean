import Dialogue.Proofs.Regrouping

/-!
# The leaves of what is read

Reading an expression loses and invents nothing: its leaves are those of the tokens
it is read from, in their order (`leaves_readOperand`). What is scanned can be
written as one token again, so an expression that has been read can be written.
-/

namespace Dialogue

theorem exists_of_map_eq_ok {ε α β : Type} {x : Except ε α} {f : α → β} {b : β}
    (h : x.map f = .ok b) : ∃ a, x = .ok a ∧ f a = b := by
  cases x with
  | error e => cases h
  | ok a =>
    cases h
    exact ⟨a, rfl, rfl⟩

theorem exists_of_bind_eq_ok {ε α β : Type} {x : Except ε α} {f : α → Except ε β} {b : β}
    (h : (x >>= f) = .ok b) : ∃ a, x = .ok a ∧ f a = .ok b := by
  cases x with
  | error e => cases h
  | ok a => exact ⟨a, rfl, h⟩

namespace Expr

namespace Token

def isLeaf : Token → Bool
  | .symbol _ => false
  | _ => true

end Token

def leafTokens (lexemes : List Lexeme) : List Token :=
  (lexemes.map Lexeme.token).filter Token.isLeaf

def Pending.leaves : Pending → List Token
  | .group => []
  | .call name args => .name name :: argumentLeaves args
  | .operand _ => []
  | .right left _ => left.leaves

def stackLeaves : List Pending → List Token
  | [] => []
  | p :: stack => stackLeaves stack ++ p.leaves

theorem argumentLeaves_append (a b : List Expr) :
    argumentLeaves (a ++ b) = argumentLeaves a ++ argumentLeaves b := by
  induction a with
  | nil => rfl
  | cons e es ih => rw [List.cons_append, argumentLeaves, argumentLeaves, ih, List.append_assoc]

theorem leaves_complete (line level : Nat) (stack : List Pending) (e : Expr) :
    stackLeaves (complete line level stack e).1 ++ (complete line level stack e).2.leaves =
      stackLeaves stack ++ e.leaves := by
  induction stack generalizing e with
  | nil => rfl
  | cons p stack ih =>
    cases p with
    | group => rfl
    | call name args => rfl
    | operand op =>
      rw [complete, ih, stackLeaves, Pending.leaves, leaves, List.append_nil]
    | right left op =>
      rw [complete]
      split
      · rw [ih, stackLeaves, Pending.leaves, leaves, List.append_assoc]
      · rfl

theorem leaves_of_complete {line level : Nat} {stack stack' : List Pending} {e e' : Expr}
    (h : complete line level stack e = (stack', e')) :
    stackLeaves stack' ++ e'.leaves = stackLeaves stack ++ e.leaves := by
  have hl := leaves_complete line level stack e
  rw [h] at hl
  exact hl

theorem leafTokens_cons_symbol {lexeme : Lexeme} {s : Symbol} (rest : List Lexeme)
    (h : lexeme.token = .symbol s) : leafTokens (lexeme :: rest) = leafTokens rest := by
  simp [leafTokens, h, Token.isLeaf]

theorem leafTokens_cons {lexeme : Lexeme} (rest : List Lexeme)
    (h : lexeme.token.isLeaf = true) :
    leafTokens (lexeme :: rest) = lexeme.token :: leafTokens rest := by
  simp [leafTokens, h]

/-! ### Reading -/

mutual

theorem leaves_readOperand (source : Source) (stack : List Pending) : ∀ (lexemes : List Lexeme)
    (e : Expr), readOperand source stack lexemes = .ok e →
    e.leaves = stackLeaves stack ++ leafTokens lexemes
  | [], _, h => by
    rw [readOperand] at h
    cases h
  | lexeme :: rest, e, h => by
    rw [readOperand] at h
    split at h
    · rename_i value ht
      rw [leaves_readOperator source stack _ rest e h, leafTokens_cons rest (by rw [ht]; rfl), ht,
        List.append_assoc]
      rfl
    · rename_i name ht
      rw [leaves_readOperator source stack _ rest e h, leafTokens_cons rest (by rw [ht]; rfl), ht,
        List.append_assoc]
      rfl
    · rename_i name ht
      rw [leaves_readArguments source stack name rest e h,
        leafTokens_cons rest (by rw [ht]; rfl), ht]
    · rename_i ht
      rw [leaves_readOperand source _ rest e h, leafTokens_cons_symbol rest ht, stackLeaves,
        Pending.leaves, List.append_nil]
    · rename_i ht
      rw [leaves_readOperand source _ rest e h, leafTokens_cons_symbol rest ht, stackLeaves,
        Pending.leaves, List.append_nil]
    · rename_i ht
      rw [leaves_readOperand source _ rest e h, leafTokens_cons_symbol rest ht, stackLeaves,
        Pending.leaves, List.append_nil]
    · cases h

theorem leaves_readArguments (source : Source) (stack : List Pending) (name : String) :
    ∀ (lexemes : List Lexeme) (e : Expr), readArguments source stack name lexemes = .ok e →
    e.leaves = stackLeaves stack ++ .name name :: leafTokens lexemes
  | [], _, h => by
    rw [readArguments] at h
    cases h
  | [lexeme], e, h => by
    rw [readArguments] at h
    split at h
    · rw [readOperand] at h
      cases h
    · cases h
  | lexeme :: next :: rest, e, h => by
    rw [readArguments] at h
    split at h
    · rename_i ht
      rw [leafTokens_cons_symbol _ ht]
      split at h
      · rename_i hn
        rw [leaves_readOperator source stack _ rest e h, leafTokens_cons_symbol rest hn,
          List.append_assoc]
        rfl
      · rw [leaves_readOperand source _ (next :: rest) e h, stackLeaves, List.append_assoc]
        rfl
    · cases h

theorem leaves_readOperator (source : Source) (stack : List Pending) (operand : Expr) :
    ∀ (lexemes : List Lexeme) (e : Expr), readOperator source stack operand lexemes = .ok e →
    e.leaves = stackLeaves stack ++ operand.leaves ++ leafTokens lexemes
  | [], e, h => by
    rw [readOperator] at h
    split at h
    · rename_i whole hc
      cases h
      rw [← leaves_of_complete hc]
      simp [stackLeaves, leafTokens]
    · cases h
  | lexeme :: rest, e, h => by
    rw [readOperator] at h
    split at h
    · rename_i ht
      rw [leafTokens_cons_symbol rest ht]
      split at h
      · rename_i stack' inner hc
        rw [leaves_readOperator source stack' inner rest e h, ← leaves_of_complete hc, stackLeaves,
          Pending.leaves, List.append_nil]
      · rename_i name args stack' last hc
        rw [leaves_readOperator source stack' _ rest e h, ← leaves_of_complete hc, stackLeaves,
          Pending.leaves, leaves, argumentLeaves_append]
        simp [argumentLeaves]
      · cases h
    · rename_i ht
      rw [leafTokens_cons_symbol rest ht]
      split at h
      · rename_i name args stack' last hc
        rw [leaves_readOperand source _ rest e h, ← leaves_of_complete hc, stackLeaves,
          stackLeaves, Pending.leaves, Pending.leaves, argumentLeaves_append]
        simp [argumentLeaves]
      · cases h
    · rename_i s _ _ ht
      rw [leafTokens_cons_symbol rest ht]
      split at h
      · rename_i op ho
        rw [leaves_readOperand source _ rest e h, stackLeaves, Pending.leaves, leaves_complete]
      · cases h
    · cases h

end

theorem isSpellable_ofWord (word : List Char) (h : isIdentifier word = true) :
    (Token.ofWord word).isSpellable = true := by
  unfold Token.ofWord
  split
  · rename_i token hl
    have hk : ∀ entry ∈ Token.keywords, entry.2.isSpellable = true := by
      simp [Token.keywords, Token.isSpellable]
    obtain ⟨before, behind, he, _⟩ := List.lookup_eq_some_iff.1 hl
    exact hk (word, token) (by rw [he]; simp)
  · rename_i hl
    rw [Token.isSpellable, String.toList_ofList, isFunctionName, h, hl]
    rfl

theorem isIdentifier_takeWhile (c : Char) (cs : List Char) (h : isWordStart c = true) :
    isIdentifier (c :: cs.takeWhile isWordPart) = true := by
  rw [isIdentifier, h, Bool.true_and]
  exact List.all_takeWhile

theorem isIdentifier_variableName {cs : List Char} (h : variableName cs ≠ []) :
    isIdentifier (variableName cs) = true := by
  unfold variableName at h ⊢
  cases cs with
  | nil => exact absurd rfl h
  | cons c cs =>
    simp only at h ⊢
    by_cases hc : isWordStart c = true
    · rw [if_pos hc]
      exact isIdentifier_takeWhile c cs hc
    · rw [if_neg hc] at h
      exact absurd rfl h

theorem isSpellable_tokenAt {cs : List Char} {t : Token} {n : Nat}
    (h : tokenAt cs = some (t, n)) : t.isSpellable = true := by
  unfold tokenAt at h
  split at h
  · cases h
  · simp only at h
    split at h
    · cases h
      rfl
    · cases h
  · rename_i rest
    split at h
    · cases h
    · rename_i name hne
      cases h
      rw [Token.isSpellable, String.toList_ofList]
      exact isIdentifier_variableName hne
  · rename_i c rest _ _
    split at h
    · rename_i hc
      cases h
      exact isSpellable_ofWord _ (isIdentifier_takeWhile c rest hc)
    · split at h
      · obtain ⟨s, _, hs⟩ := Option.map_eq_some_iff.1 h
        cases hs
        rfl
      · cases h
        exact Decimal.isUnsigned_toFloat _

theorem isSpellable_scanFrom (offset : Nat) (cs : List Char) (lexemes : List Lexeme)
    (h : scanFrom offset cs = .ok lexemes) : ∀ l ∈ lexemes, l.token.isSpellable = true := by
  fun_induction scanFrom offset cs generalizing lexemes with
  | case1 offset =>
    cases h
    simp
  | case2 offset c rest hs ih => exact ih lexemes h
  | case3 => cases h
  | case4 offset c rest hs token n found stop more hmore ih =>
    cases h
    intro l hl
    rcases List.mem_cons.1 hl with rfl | hl
    · exact isSpellable_tokenAt found
    · exact ih more hmore l hl
  | case5 => cases h

theorem readSource_eq_ok {α : Type} {read : Source → List Lexeme → Except Misfit α}
    {origin : Position} {text : List Char} {a : α} (h : readSource read origin text = .ok a) :
    ∃ lexemes, scan text = .ok lexemes ∧ read ⟨origin.line, Text.byteLength text⟩ lexemes = .ok a := by
  unfold readSource at h
  split at h
  · cases h
  · rename_i lexemes hs
    split at h
    · cases h
    · rename_i b hr
      cases h
      exact ⟨lexemes, hs, hr⟩

theorem leaves_parseAt {origin : Position} {text : List Char} {e : Expr}
    (h : parseAt origin text = .ok e) :
    ∃ lexemes, scan text = .ok lexemes ∧ e.leaves = leafTokens lexemes := by
  obtain ⟨lexemes, hs, hr⟩ := readSource_eq_ok h
  exact ⟨lexemes, hs, leaves_readOperand _ [] lexemes e hr⟩

theorem isSpellable_leafTokens {text : List Char} {lexemes : List Lexeme}
    (h : scan text = .ok lexemes) : (leafTokens lexemes).all Token.isSpellable = true := by
  refine List.all_eq_true.2 fun t ht => ?_
  obtain ⟨l, hl, rfl⟩ := List.mem_map.1 (List.mem_of_mem_filter ht)
  exact isSpellable_scanFrom 0 text lexemes h l hl

theorem spellable_parseAt {origin : Position} {text : List Char} {e : Expr}
    (h : parseAt origin text = .ok e) : e.spellable = true := by
  obtain ⟨lexemes, hs, hl⟩ := leaves_parseAt h
  rw [spellable, hl]
  exact isSpellable_leafTokens hs

theorem leaves_parseAssignmentAt {origin : Position} {text : List Char} {a : Assignment}
    (h : parseAssignmentAt origin text = .ok a) :
    ∃ lexemes, scan text = .ok lexemes ∧
      .var a.target :: a.value.leaves = leafTokens lexemes := by
  obtain ⟨lexemes, hs, hr⟩ := readSource_eq_ok h
  refine ⟨lexemes, hs, ?_⟩
  unfold assignmentOfLexemes at hr
  split at hr
  · rename_i target _ _ rest
    split at hr
    · rename_i s _ _ value
      split at hr
      · rename_i op ho
        cases hv : ofLexemes ⟨origin.line, Text.byteLength text⟩ value with
        | error m =>
          rw [hv] at hr
          cases hr
        | ok e =>
          rw [hv] at hr
          cases hr
          rw [leafTokens_cons _ rfl, leafTokens_cons_symbol _ rfl]
          simp only
          rw [leaves_readOperand _ [] value e hv]
          rfl
      · cases hr
    · cases hr
  · cases hr

theorem spellable_parseAssignmentAt {origin : Position} {text : List Char} {a : Assignment}
    (h : parseAssignmentAt origin text = .ok a) :
    isIdentifier a.target.toList = true ∧ a.value.spellable = true := by
  obtain ⟨lexemes, hs, hl⟩ := leaves_parseAssignmentAt h
  have ha := isSpellable_leafTokens hs
  rw [← hl, List.all_cons, Bool.and_eq_true] at ha
  exact ha

end Expr

end Dialogue
