import Dialogue.Proofs.Fitting
import Dialogue.Proofs.Leaves
import Dialogue.Proofs.Sealing

/-!
# Expressions that are not read back

Two kinds of leaves cannot be written in a command. An infinite number is written as
a word, and so read as another leaf. A string that holds the bracket which ends a
command ends the command inside the string, and what stands in front of it is no
expression. Whatever is read instead of such an expression does not have its leaves
(`exists_misread`). An expression that stands alone may hold any string, and is read
back exactly if all its leaves have a spelling (`parse_format_iff`).
-/

namespace Dialogue

namespace Expr

theorem isFinite_of_written {t : Token} (h : t.written = t) : t.isFinite = true := by
  unfold Token.written at h
  split at h
  · split at h
    · assumption
    · cases h
  · rename_i hn
    unfold Token.isFinite
    split
    · exact absurd rfl (hn _)
    · rfl

theorem filter_enclosed (needed : Bool) (ts : List Token) :
    (enclosed needed ts).filter Token.isLeaf = ts.filter Token.isLeaf := by
  cases needed with
  | false => rfl
  | true => simp [enclosed, Token.isLeaf]

mutual

theorem filter_tokens : ∀ e : Expr, e.tokens.filter Token.isLeaf = e.leaves.map Token.written
  | .literal _ value => by
    have hl : (Token.literal value).written.isLeaf = true := by
      unfold Token.written
      split
      · split <;> rfl
      · rfl
    simp [tokens, leaves, hl]
  | .var _ name => rfl
  | .call _ name args => by
    simp [tokens, leaves, List.filter_cons, Token.isLeaf, Token.written,
      filter_argumentTokens args]
  | .unary _ op operand => by
    simp [tokens, leaves, Token.isLeaf, filter_enclosed, filter_tokens operand]
  | .binary _ op left right => by
    simp [tokens, leaves, Token.isLeaf, filter_enclosed, filter_tokens left, filter_tokens right]

theorem filter_argumentTokens : ∀ es : List Expr,
    (argumentTokens es).filter Token.isLeaf = (argumentLeaves es).map Token.written
  | [] => rfl
  | [e] => by simp [argumentTokens, argumentLeaves, filter_tokens e]
  | e :: e' :: es => by
    rw [argumentTokens_cons, argumentLeaves]
    simp [Token.isLeaf, filter_tokens e, filter_argumentTokens (e' :: es)]

end

theorem leafTokens_eq {lexemes : List Lexeme} {ts : List Token}
    (h : lexemes.map Lexeme.token = ts) : leafTokens lexemes = ts.filter Token.isLeaf := by
  rw [leafTokens, h]

mutual

theorem leaves_atLine (n : Nat) : ∀ e : Expr, (e.atLine n).leaves = e.leaves
  | .literal _ _ => rfl
  | .var _ _ => rfl
  | .call _ name args => by rw [atLine, leaves, leaves, argumentLeaves_argumentsAtLine n args]
  | .unary _ _ operand => leaves_atLine n operand
  | .binary _ _ left right => by
    rw [atLine, leaves, leaves, leaves_atLine n left, leaves_atLine n right]

theorem argumentLeaves_argumentsAtLine (n : Nat) : ∀ es : List Expr,
    argumentLeaves (argumentsAtLine n es) = argumentLeaves es
  | [] => rfl
  | e :: es => by
    rw [argumentsAtLine, argumentLeaves, argumentLeaves, leaves_atLine n e,
      argumentLeaves_argumentsAtLine n es]

end

/-! ### Strings that end a command -/

theorem exists_first_double (c : Char) (cs : List Char) (h : Text.hasDouble c cs = true) :
    ∃ a b, cs = a ++ c :: c :: b ∧ Text.hasDouble c (a ++ [c]) = false := by
  induction cs with
  | nil => cases h
  | cons x xs ih =>
    cases xs with
    | nil => cases h
    | cons y ys =>
      rw [Text.hasDouble, Bool.or_eq_true, Bool.and_eq_true, beq_iff_eq, beq_iff_eq] at h
      by_cases hxy : x = c ∧ y = c
      · obtain ⟨rfl, rfl⟩ := hxy
        exact ⟨[], ys, rfl, rfl⟩
      · obtain ⟨a, b, hab, ha⟩ := ih (h.resolve_left hxy)
        refine ⟨x :: a, b, by rw [hab]; rfl, ?_⟩
        have hy : (a ++ [c]).head? = some y := by
          have hh := congrArg List.head? hab
          cases a with
          | nil =>
            simpa using hh.symm
          | cons z zs => simpa using hh.symm
        refine hasDouble_append c [x] (a ++ [c]) rfl ha ?_
        rw [hy]
        by_cases hx : x = c
        · exact Or.inr fun he => hxy ⟨hx, Option.some.inj he⟩
        · exact Or.inl (by simpa using hx)

theorem getLast?_ne_of_hasDouble {c : Char} {cs : List Char}
    (h : Text.hasDouble c (cs ++ [c]) = false) : cs.getLast? ≠ some c := by
  intro hl
  obtain ⟨ds, rfl⟩ := List.getLast?_eq_some_iff.1 hl
  rw [List.append_assoc] at h
  have hd := (Text.hasDouble_of_append h).2
  simp [Text.hasDouble] at hd

theorem tidy_open_string (cs : List Char) (h : Text.hasDouble '>' (cs ++ ['>']) = false) :
    Tidy ('"' :: cs.flatMap escapedChar) := by
  have he : (cs ++ ['>']).flatMap escapedChar = cs.flatMap escapedChar ++ ['>'] := by
    simp [escapedChar]
  have hd := (hasDouble_escaped _ h).1
  rw [he] at hd
  have hlast := getLast?_ne_of_hasDouble hd
  refine ⟨⟨List.cons_ne_nil _ _, ?_, ?_, ?_⟩, by simp⟩
  · intro hm
    rcases List.mem_cons.1 hm with hm | hm
    · revert hm
      decide
    · exact newline_not_mem_escaped cs hm
  · exact hasDouble_append '>' ['"'] _ rfl (Text.hasDouble_of_append hd).1 (Or.inl (by decide))
  · cases hcs : cs.flatMap escapedChar with
    | nil => simp
    | cons d ds =>
      rw [hcs] at hlast
      simpa using hlast

theorem stringBody_open (cs : List Char) : (stringBody (cs.flatMap escapedChar)).closed = false := by
  induction cs with
  | nil => rfl
  | cons c cs ih =>
    rw [List.flatMap_cons, stringBody_escapedChar]
    exact ih

theorem scanFrom_open_string {offset : Nat} {cs : List Char} {lexemes : List Lexeme}
    (h : scanFrom offset ('"' :: cs.flatMap escapedChar) = .ok lexemes) : False := by
  have ht : tokenAt ('"' :: cs.flatMap escapedChar) = none := by
    simp [tokenAt, stringBody_open]
  rw [scanFrom, if_neg (by decide)] at h
  split at h
  · cases h
  · rename_i hsome
    rw [ht] at hsome
    cases hsome

/-- A text that ends a command inside a string; up to there it is scanned. -/
inductive Breaks : List Char → Prop
  | mk (head value more : List Char) (spells : ∀ tail, ∃ ts, Spells head ts ('"' :: tail))
      (tidy : head = [] ∨ Tidy head) (double : Text.hasDouble '>' (value ++ ['>']) = false) :
      Breaks (head ++ ('"' :: value.flatMap escapedChar ++ '>' :: '>' :: more))

theorem Breaks.within {a b : List Char} (h : Breaks b) (c : List Char)
    (ha : ∀ rest, rest.head? = b.head? → ∃ ts, Spells a ts rest) (ht : a = [] ∨ Tidy a) :
    Breaks (a ++ b ++ c) := by
  obtain ⟨head, value, more, spells, tidy, double⟩ := h
  have hspells : ∀ tail, ∃ ts, Spells (a ++ head) ts ('"' :: tail) := by
    intro tail
    obtain ⟨ts, hts⟩ := spells tail
    obtain ⟨us, hus⟩ := ha (head ++ '"' :: tail) (by cases head <;> rfl)
    exact ⟨us ++ ts, hus.append hts⟩
  have htidy : a ++ head = [] ∨ Tidy (a ++ head) := by
    rcases ht with rfl | ht
    · exact tidy
    · rcases tidy with rfl | tidy
      · rw [List.append_nil]
        exact Or.inr ht
      · exact Or.inr (ht.append tidy)
  have hb := Breaks.mk (a ++ head) value (more ++ c) hspells htidy double
  simpa using hb

theorem breaks_string (value : List Char) (h : Text.hasDouble '>' value = true) :
    Breaks ('"' :: value.flatMap escapedChar ++ ['"']) := by
  obtain ⟨a, b, rfl, ha⟩ := exists_first_double '>' value h
  have hb := Breaks.mk [] a (b.flatMap escapedChar ++ ['"']) (fun tail => ⟨[], spells_nil _⟩)
    (Or.inl rfl) ha
  simpa [escapedChar] using hb

theorem breaks_parenthesized {cs : List Char} (needed : Bool) (h : Breaks cs) :
    Breaks (parenthesized needed cs) := by
  cases needed with
  | false => exact h
  | true =>
    refine h.within (a := ['(']) [')'] (fun rest _ => ⟨_, spells_punctuation .openParen rest (Or.inl rfl)⟩)
      (Or.inr (tidy_of_not_mem _ (by decide) (by decide) (by decide)))

theorem spells_binaryOp (op : BinaryOp) (rest : List Char) :
    Spells (' ' :: op.symbol.toList ++ [' ']) [.symbol op.token] rest := by
  have hop := (spells_symbol op.token ([' '] ++ rest) (by simp)).append
    (spells_skipped ' ' rest (by decide))
  have hall := (spells_skipped ' ' _ (by decide)).append hop
  rw [BinaryOp.chars_token] at hall
  exact hall

mutual

theorem breaks_chars : ∀ e : Expr, e.spellable = true → e.unbroken = false → Breaks e.chars
  | .literal _ value, _, h => by
    cases value with
    | string s => exact breaks_string s.toList (by simpa [unbroken, leaves, Token.isSealed] using h)
    | number x => cases h
    | bool b => cases h
  | .var _ name, _, h => by cases h
  | .call _ name args, hs, h => by
    obtain ⟨hn, ha⟩ := spellable_call hs
    have hi := isIdentifier_of_isFunctionName _ hn
    have hargs := breaks_argumentChars args ha (by simpa [unbroken, leaves, Token.isSealed] using h)
    have hopen : Tidy ['('] := tidy_of_not_mem _ (by decide) (by decide) (by decide)
    have hb := hargs.within (a := name.toList ++ ['(']) [')'] (fun rest _ =>
      ⟨_, (spells_word name.toList _ hi (ends_cons _ _ (by decide) (by decide))).append
        (spells_punctuation .openParen rest (Or.inl rfl))⟩)
      (Or.inr ((tidy_identifier _ hi).append hopen))
    rw [chars]
    simpa using hb
  | .unary _ op operand, hs, h => by
    have hb := breaks_parenthesized (operand.precedence < 7) (breaks_chars operand hs h)
    have hf := follows_parenthesized (operand.precedence < 7) (follows_chars operand hs)
    have hw := hb.within (a := op.symbol.toList) [] (fun rest hr => by
      rw [← UnaryOp.chars_token]
      refine ⟨_, spells_symbol op.token rest ?_⟩
      rw [hr]
      simpa using hf.head []) (Or.inr (tidy_unaryOp op))
    rw [chars]
    simpa using hw
  | .binary _ op left right, hs, h => by
    obtain ⟨hl, hr⟩ := spellable_binary hs
    rw [chars]
    by_cases hleft : left.unbroken = true
    · have hright : right.unbroken = false := by
        rw [unbroken, leaves, List.all_append, Bool.and_eq_false_iff] at h
        rcases h with h | h
        · rw [unbroken, h] at hleft
          cases hleft
        · exact h
      have hb := breaks_parenthesized (right.precedence ≤ op.precedence)
        (breaks_chars right hr hright)
      have ht := tidy_parenthesized (left.precedence < op.precedence) _ (tidy_chars left hl hleft)
      have hw := hb.within (a := parenthesized (left.precedence < op.precedence) left.chars ++
          (' ' :: op.symbol.toList ++ [' '])) [] (fun rest _ =>
        ⟨_, (spells_parenthesized _ (fun rest hr => spells_chars left rest hl hr)
          (ends_cons ' ' _ (by decide) (by decide))).append (spells_binaryOp op rest)⟩)
        (Or.inr (ht.append (tidy_binaryOp op)))
      simpa using hw
    · have hb := breaks_parenthesized (left.precedence < op.precedence)
        (breaks_chars left hl (by simpa using hleft))
      have hw := hb.within (a := []) (' ' :: op.symbol.toList ++ ' ' ::
          parenthesized (right.precedence ≤ op.precedence) right.chars)
        (fun rest _ => ⟨[], spells_nil rest⟩) (Or.inl rfl)
      simpa using hw

theorem breaks_argumentChars : ∀ es : List Expr,
    (argumentLeaves es).all Token.isSpellable = true →
    (argumentLeaves es).all Token.isSealed = false → Breaks (argumentChars es)
  | [], _, h => by cases h
  | [e], hs, h => by
    rw [argumentLeaves, argumentLeaves, List.append_nil] at hs h
    exact breaks_chars e hs h
  | e :: e' :: es, hs, h => by
    rw [argumentLeaves, List.all_append, Bool.and_eq_true] at hs
    have hcomma : Tidy [',', ' '] := tidy_of_not_mem _ (by decide) (by decide) (by decide)
    have hchars : argumentChars (e :: e' :: es) =
        e.chars ++ ',' :: ' ' :: argumentChars (e' :: es) := by
      rw [argumentChars]
      exact List.cons_ne_nil _ _
    rw [hchars]
    by_cases he : e.unbroken = true
    · have hrest : (argumentLeaves (e' :: es)).all Token.isSealed = false := by
        rw [argumentLeaves, List.all_append, Bool.and_eq_false_iff] at h
        rcases h with h | h
        · rw [unbroken, h] at he
          cases he
        · exact h
      have hb := breaks_argumentChars (e' :: es) hs.2 hrest
      have hw := hb.within (a := e.chars ++ ([','] ++ [' '])) [] (fun rest _ =>
        ⟨_, (spells_chars e _ hs.1 (ends_cons ',' _ (by decide) (by decide))).append
          ((spells_punctuation .comma _ (Or.inr (Or.inr rfl))).append
            (spells_skipped ' ' rest (by decide)))⟩)
        (Or.inr ((tidy_chars e hs.1 he).append hcomma))
      simpa using hw
    · have hb := breaks_chars e hs.1 (by simpa using he)
      have hw := hb.within (a := []) (',' :: ' ' :: argumentChars (e' :: es))
        (fun rest _ => ⟨[], spells_nil rest⟩) (Or.inl rfl)
      simpa using hw

end

theorem not_map_written {e : Expr} (h : e.finite = false) : e.leaves.map Token.written ≠ e.leaves := by
  intro he
  have hid : e.leaves.map Token.written = e.leaves.map id := by rw [he, List.map_id]
  have hall : e.finite = true :=
    List.all_eq_true.2 fun t ht => isFinite_of_written (List.map_inj_left.1 hid t ht)
  rw [h] at hall
  cases hall

/-- Whatever is scanned from the text, it has not the leaves of the expression. -/
def Misread (e : Expr) (text : List Char) : Prop :=
  ∀ lead ts lexemes, (∀ cs, Spells lead ts cs) → scan (lead ++ text) = .ok lexemes →
    leafTokens lexemes ≠ ts.filter Token.isLeaf ++ e.leaves

/-- A command that should hold such an expression ends where the expression is misread. -/
theorem exists_misread (e : Expr) (hs : e.spellable = true)
    (h : e.finite = false ∨ e.unbroken = false) (rest : List Char) :
    ∃ text behind, e.chars ++ '>' :: '>' :: rest = text ++ '>' :: '>' :: behind ∧ Tidy text ∧
      e.Misread text := by
  cases hu : e.unbroken with
  | true =>
    have hf : e.finite = false := h.resolve_right (by simp [hu])
    refine ⟨e.chars, rest, rfl, tidy_chars e hs hu, fun lead ts lexemes hlead hscan hl => ?_⟩
    obtain ⟨found, hfound, hscan'⟩ :=
      scan_of_spells ((hlead (e.chars ++ [])).append (spells_chars e [] hs ends_nil))
    rw [hscan] at hscan'
    cases hscan'
    rw [leafTokens_eq hfound, List.filter_append, filter_tokens] at hl
    exact not_map_written hf (List.append_cancel_left hl)
  | false =>
    have hb := breaks_chars e hs hu
    generalize e.chars = cs at hb
    obtain ⟨head, value, more, spells, tidy, double⟩ := hb
    have hstring := tidy_open_string value double
    refine ⟨head ++ '"' :: value.flatMap escapedChar, more ++ '>' :: '>' :: rest, by simp, ?_, ?_⟩
    · rcases tidy with rfl | tidy
      · exact hstring
      · exact tidy.append hstring
    · intro lead ts lexemes hlead hscan
      obtain ⟨us, hus⟩ := spells (value.flatMap escapedChar)
      have hall : Spells (lead ++ head) (ts ++ us) ('"' :: value.flatMap escapedChar) :=
        (hlead _).append hus
      obtain ⟨found, stop, _, hstop⟩ := hall 0
      rw [List.append_assoc] at hstop
      rw [scan, hstop] at hscan
      obtain ⟨more, hmore, _⟩ := exists_of_map_eq_ok hscan
      exact absurd hmore scanFrom_open_string

theorem leaves_atLine_eq {e e' : Expr} (h : e.atLine 0 = e'.atLine 0) : e.leaves = e'.leaves := by
  rw [← leaves_atLine 0 e, h, leaves_atLine 0 e']

theorem Misread.parseAt {e e' : Expr} {text : List Char} (h : e.Misread text) {origin : Position}
    (hp : parseAt origin (' ' :: text) = .ok e') : e'.atLine 0 ≠ e.atLine 0 := by
  intro he
  obtain ⟨lexemes, hscan, hl⟩ := leaves_parseAt hp
  rw [leaves_atLine_eq he] at hl
  exact h [' '] [] lexemes (fun cs => spells_skipped ' ' cs (by decide)) hscan hl.symm

/-! ### Expressions that stand alone -/

theorem parse_format_of_spellable {e : Expr} (hs : e.spellable = true) (hf : e.finite = true)
    (line : Nat) : parse e.format line = .ok (e.atLine line) := by
  rw [parse, format, String.toList_ofList]
  exact parseAt_of_spells e hf ⟨line, 1⟩ e.chars (spells_chars e [] hs ends_nil)

theorem spellable_of_parse_format {e : Expr} {line : Nat}
    (h : parse e.format line = .ok (e.atLine line)) : e.spellable = true := by
  have hs : (e.atLine line).spellable = true := spellable_parseAt h
  rw [spellable, leaves_atLine] at hs
  exact hs

theorem finite_of_parse_format {e : Expr} {line : Nat}
    (h : parse e.format line = .ok (e.atLine line)) : e.finite = true := by
  -- Its leaves come back as they are written, so none of them is written as another one.
  obtain ⟨found, hfound, hscan⟩ :=
    scan_of_spells (spells_chars e [] (spellable_of_parse_format h) ends_nil)
  rw [parse, format, String.toList_ofList] at h
  obtain ⟨lexemes, hlexemes, hl⟩ := leaves_parseAt h
  rw [hscan] at hlexemes
  cases hlexemes
  rw [leafTokens_eq hfound, filter_tokens, leaves_atLine] at hl
  cases hf : e.finite with
  | true => rfl
  | false => exact absurd hl.symm (not_map_written hf)

/-- The text of an expression is read as that expression, on the line it is read on, exactly if its
numbers are finite and carry no sign, its variables are identifiers, and its functions are
identifiers that are no words of the language. -/
theorem parse_format_iff (e : Expr) (line : Nat) :
    parse e.format line = .ok (e.atLine line) ↔
      ∀ leaf ∈ e.leaves, leaf.isSpellable = true ∧ leaf.isFinite = true := by
  constructor
  · intro h leaf hl
    exact ⟨List.all_eq_true.1 (spellable_of_parse_format h) leaf hl,
      List.all_eq_true.1 (finite_of_parse_format h) leaf hl⟩
  · intro h
    exact parse_format_of_spellable (List.all_eq_true.2 fun leaf hl => (h leaf hl).1)
      (List.all_eq_true.2 fun leaf hl => (h leaf hl).2) line

end Expr

end Dialogue
