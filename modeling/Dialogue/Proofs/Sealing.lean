import Dialogue.Proofs.Delimiters

/-!
# Expressions between the brackets of a command

The text of an expression stands inside a command, which ends at the first closing
bracket. Nothing but a string literal can put that bracket into the text: a single
`>` is an operator and stands between spaces. So the text of an expression whose
strings are free of the bracket is closed by the bracket behind it (`tidy_chars`).
-/

namespace Dialogue

/-- What may stand between the brackets of a command. -/
structure Sealed (cs : List Char) : Prop where
  ne_nil : cs ≠ []
  newline : '\n' ∉ cs
  double : Text.hasDouble '>' cs = false
  last : cs.getLast? ≠ some '>'

structure Tidy (cs : List Char) : Prop extends Sealed cs where
  first : cs.head? ≠ some '>'

theorem hasDouble_append (c : Char) (a b : List Char) (ha : Text.hasDouble c a = false)
    (hb : Text.hasDouble c b = false) (h : a.getLast? ≠ some c ∨ b.head? ≠ some c) :
    Text.hasDouble c (a ++ b) = false := by
  induction a with
  | nil => exact hb
  | cons x xs ih =>
    cases xs with
    | nil =>
      cases b with
      | nil => rfl
      | cons y ys =>
        simp only [List.singleton_append, Text.hasDouble, hb, Bool.or_false, Bool.and_eq_false_iff,
          beq_eq_false_iff_ne]
        simpa using h
    | cons y ys =>
      simp only [List.cons_append, Text.hasDouble, Bool.or_eq_false_iff] at ha ⊢
      refine ⟨ha.1, ih ha.2 ?_⟩
      simpa using h

theorem Sealed.append {a b : List Char} (ha : Sealed a) (hb : Tidy b) : Sealed (a ++ b) where
  ne_nil := by
    intro h
    exact ha.ne_nil (List.append_eq_nil_iff.1 h).1
  newline := by
    intro h
    rcases List.mem_append.1 h with h | h
    · exact ha.newline h
    · exact hb.newline h
  double := hasDouble_append '>' a b ha.double hb.double (Or.inr hb.first)
  last := by
    rw [List.getLast?_append_of_ne_nil _ hb.ne_nil]
    exact hb.last

theorem Tidy.append {a b : List Char} (ha : Tidy a) (hb : Tidy b) : Tidy (a ++ b) where
  toSealed := ha.toSealed.append hb
  first := by
    obtain ⟨c, cs, rfl⟩ := List.exists_cons_of_ne_nil ha.ne_nil
    exact ha.first

theorem hasDouble_of_not_mem (c : Char) (cs : List Char) (h : c ∉ cs) :
    Text.hasDouble c cs = false := by
  induction cs with
  | nil => rfl
  | cons x xs ih =>
    have hx : x ≠ c := fun hx => h (by rw [hx]; exact List.mem_cons_self)
    have hxs := ih fun hm => h (List.mem_cons_of_mem _ hm)
    cases xs with
    | nil => rfl
    | cons y ys => simp [Text.hasDouble, hx, hxs]

theorem tidy_of_not_mem (cs : List Char) (hne : cs ≠ []) (hn : '\n' ∉ cs) (hb : '>' ∉ cs) :
    Tidy cs where
  ne_nil := hne
  newline := hn
  double := hasDouble_of_not_mem '>' cs hb
  last := fun h => hb (List.mem_of_getLast? h)
  first := fun h => hb (List.mem_of_mem_head? h)

namespace Expr

theorem tidy_of_isWordPart (cs : List Char) (hne : cs ≠ [])
    (h : ∀ c ∈ cs, isWordPart c = true ∨ c = '.') : Tidy cs := by
  have hmem : ∀ d, isWordPart d = false → d ≠ '.' → d ∉ cs := by
    intro d hd hp hm
    rcases h d hm with hw | hw
    · rw [hd] at hw
      cases hw
    · exact hp hw
  exact tidy_of_not_mem cs hne (hmem _ (by decide) (by decide)) (hmem _ (by decide) (by decide))

theorem tidy_identifier (word : List Char) (h : isIdentifier word = true) : Tidy word := by
  cases word with
  | nil => cases h
  | cons c cs =>
    simp only [isIdentifier, Bool.and_eq_true] at h
    refine tidy_of_isWordPart _ (List.cons_ne_nil _ _) fun d hd => Or.inl ?_
    rcases List.mem_cons.1 hd with rfl | hd
    · exact isWordPart_of_isWordStart _ h.1
    · exact List.all_eq_true.1 h.2 d hd

theorem tidy_decimal (d : Decimal) : Tidy d.chars := by
  obtain ⟨c, cs, hc, _⟩ := chars_eq_digit_cons d
  refine tidy_of_isWordPart _ (by rw [hc]; exact List.cons_ne_nil _ _) fun x hx => ?_
  unfold Decimal.chars at hx
  split at hx
  · exact Or.inl (isWordPart_of_isDigit x (d.isDigit_of_mem_wholeDigits x hx))
  · rcases List.mem_append.1 hx with hx | hx
    · exact Or.inl (isWordPart_of_isDigit x (d.isDigit_of_mem_wholeDigits x hx))
    · rcases List.mem_cons.1 hx with rfl | hx
      · exact Or.inr rfl
      · exact Or.inl (isWordPart_of_isDigit x (Decimal.isDigit_of_mem_lastDigits _ _ x hx))

theorem newline_not_mem_escaped (cs : List Char) : '\n' ∉ cs.flatMap escapedChar := by
  intro h
  obtain ⟨c, _, hc⟩ := List.mem_flatMap.1 h
  unfold escapedChar at hc
  split at hc
  · simp at hc
  · simp at hc
  · simp at hc
  · simp at hc
  · rename_i hn _
    exact hn (List.mem_singleton.1 hc).symm

theorem hasDouble_escaped (cs : List Char) (h : Text.hasDouble '>' cs = false) :
    Text.hasDouble '>' (cs.flatMap escapedChar) = false ∧
      ((cs.flatMap escapedChar).head? = some '>' → cs.head? = some '>') := by
  induction cs with
  | nil => exact ⟨rfl, nofun⟩
  | cons c cs ih =>
    obtain ⟨hd, hh⟩ := ih (Text.hasDouble_tail h)
    rw [List.flatMap_cons]
    by_cases hc : c = '>'
    · subst hc
      have hne := Text.head?_ne_of_hasDouble h
      refine ⟨hasDouble_append '>' _ _ rfl hd (Or.inr fun hx => hne (hh hx)), fun _ => rfl⟩
    · have he : Text.hasDouble '>' (escapedChar c) = false ∧
          (escapedChar c).getLast? ≠ some '>' ∧ (escapedChar c).head? ≠ some '>' ∧
          escapedChar c ≠ [] := by
        unfold escapedChar
        split
        · decide
        · decide
        · decide
        · decide
        · simp [Text.hasDouble, hc]
      refine ⟨hasDouble_append '>' _ _ he.1 hd (Or.inl he.2.1), fun hx => ?_⟩
      obtain ⟨d, ds, hds⟩ := List.exists_cons_of_ne_nil he.2.2.2
      rw [hds] at hx he
      exact absurd hx he.2.2.1

theorem tidy_string (cs : List Char) (h : Text.hasDouble '>' cs = false) :
    Tidy ('"' :: cs.flatMap escapedChar ++ ['"']) where
  ne_nil := List.cons_ne_nil _ _
  newline := by
    intro hm
    rcases List.mem_append.1 hm with hm | hm
    · rcases List.mem_cons.1 hm with hm | hm
      · revert hm
        decide
      · exact newline_not_mem_escaped cs hm
    · revert hm
      decide
  double := by
    refine hasDouble_append '>' _ _ ?_ rfl (Or.inr (by decide))
    exact hasDouble_append '>' ['"'] _ rfl (hasDouble_escaped cs h).1 (Or.inl (by decide))
  last := by
    rw [List.getLast?_append_of_ne_nil _ (List.cons_ne_nil _ _)]
    decide
  first := by
    simp

theorem tidy_literal (value : Value) (hs : (Token.literal value).isSpellable = true)
    (h : (Token.literal value).isSealed = true) : Tidy (literalChars value) := by
  cases value with
  | number x =>
    rw [literalChars, Decimal.floatChars_of_isUnsigned x hs]
    split
    · exact tidy_decimal _
    · exact tidy_of_not_mem _ (by decide) (by decide) (by decide)
  | string s => exact tidy_string s.toList (by simpa [Token.isSealed] using h)
  | bool b =>
    cases b with
    | true => exact tidy_of_not_mem _ (by decide) (by decide) (by decide)
    | false => exact tidy_of_not_mem _ (by decide) (by decide) (by decide)

theorem tidy_parenthesized (needed : Bool) (cs : List Char) (h : Tidy cs) :
    Tidy (parenthesized needed cs) := by
  cases needed with
  | false => exact h
  | true =>
    have hopen : Tidy ['('] := tidy_of_not_mem _ (by decide) (by decide) (by decide)
    have hclose : Tidy [')'] := tidy_of_not_mem _ (by decide) (by decide) (by decide)
    exact hopen.append (h.append hclose)

theorem tidy_unaryOp (op : UnaryOp) : Tidy op.symbol.toList := by
  cases op <;> exact tidy_of_not_mem _ (by decide) (by decide) (by decide)

theorem tidy_binaryOp (op : BinaryOp) : Tidy (' ' :: op.symbol.toList ++ [' ']) := by
  cases op <;> exact ⟨⟨by decide, by decide, by decide, by decide⟩, by decide⟩

/-! ### Whole expressions -/

/-- Whether no string of an expression holds the bracket that ends a command. -/
def unbroken (e : Expr) : Bool := e.leaves.all Token.isSealed

mutual

theorem tidy_chars : ∀ e : Expr, e.spellable = true → e.unbroken = true → Tidy e.chars
  | .literal _ value, hs, h =>
    tidy_literal value (spellable_literal hs) (by simpa [unbroken, leaves] using h)
  | .var _ name, hs, _ => by
    have hdollar : Tidy ['$'] := tidy_of_not_mem _ (by decide) (by decide) (by decide)
    exact hdollar.append (tidy_identifier _ (spellable_var hs))
  | .call _ name args, hs, h => by
    obtain ⟨hn, ha⟩ := spellable_call hs
    rw [unbroken, leaves, List.all_cons, Bool.and_eq_true] at h
    have hname := tidy_identifier _ (isIdentifier_of_isFunctionName _ hn)
    have hargs := tidy_argumentChars args ha h.2
    have hopen : Tidy (['('] ++ (argumentChars args ++ [')'])) := by
      have hopen : Tidy ['('] := tidy_of_not_mem _ (by decide) (by decide) (by decide)
      have hclose : Tidy [')'] := tidy_of_not_mem _ (by decide) (by decide) (by decide)
      rcases hargs with hargs | hargs
      · rw [hargs]
        exact hopen.append hclose
      · exact hopen.append (hargs.append hclose)
    rw [chars, List.append_assoc]
    exact hname.append hopen
  | .unary _ op operand, hs, h =>
    (tidy_unaryOp op).append (tidy_parenthesized _ _ (tidy_chars operand hs h))
  | .binary _ op left right, hs, h => by
    obtain ⟨hl, hr⟩ := spellable_binary hs
    rw [unbroken, leaves, List.all_append, Bool.and_eq_true] at h
    have hleft := tidy_parenthesized (left.precedence < op.precedence) _ (tidy_chars left hl h.1)
    have hright := tidy_parenthesized (right.precedence ≤ op.precedence) _ (tidy_chars right hr h.2)
    have hall := hleft.append ((tidy_binaryOp op).append hright)
    rw [chars]
    simpa using hall

theorem tidy_argumentChars : ∀ es : List Expr, (argumentLeaves es).all Token.isSpellable = true →
    (argumentLeaves es).all Token.isSealed = true →
    argumentChars es = [] ∨ Tidy (argumentChars es)
  | [], _, _ => Or.inl rfl
  | [e], hs, h => by
    rw [argumentLeaves, argumentLeaves, List.append_nil] at hs h
    exact Or.inr (tidy_chars e hs h)
  | e :: e' :: es, hs, h => by
    rw [argumentLeaves, List.all_append, Bool.and_eq_true] at hs h
    have he := tidy_chars e hs.1 h.1
    have hcomma : Tidy [',', ' '] := tidy_of_not_mem _ (by decide) (by decide) (by decide)
    right
    rcases tidy_argumentChars (e' :: es) hs.2 h.2 with hrest | hrest
    · have hall := he.append hcomma
      rw [argumentChars, hrest]
      · simpa using hall
      · exact List.cons_ne_nil _ _
    · have hall := he.append (hcomma.append hrest)
      rw [argumentChars]
      · simpa using hall
      · exact List.cons_ne_nil _ _

end

end Expr

end Dialogue
