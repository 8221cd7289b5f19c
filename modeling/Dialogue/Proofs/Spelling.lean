import Dialogue.Expr.Parser
import Dialogue.Expr.Printer
import Dialogue.Proofs.Numeral

/-!
# Scanning a written expression

The text of an expression is scanned to the tokens it was written from. A piece of
text spells some tokens in front of a rest if the scan of both begins with these
tokens and goes on with the rest (`Spells`). Pieces are put together from left to
right; all that a piece asks of the rest is that it does not make the last token
longer.
-/

namespace Dialogue

namespace Expr

def isIdentifier : List Char → Bool
  | [] => false
  | c :: cs => isWordStart c && cs.all isWordPart

/-- Whether a text may name a function: an identifier that is no word of the language. -/
def isFunctionName (word : List Char) : Bool :=
  isIdentifier word && (Token.keywords.lookup word).isNone

mutual

def leaves : Expr → List Token
  | .literal _ value => [.literal value]
  | .var _ name => [.var name]
  | .call _ name args => .name name :: argumentLeaves args
  | .unary _ _ operand => operand.leaves
  | .binary _ _ left right => left.leaves ++ right.leaves

def argumentLeaves : List Expr → List Token
  | [] => []
  | e :: es => e.leaves ++ argumentLeaves es

end

namespace Token

/-- Whether a leaf is written as one token: a sign would be an operator, and a name must be a
word. -/
def isSpellable : Token → Bool
  | .literal (.number x) => Decimal.isUnsigned x
  | .literal _ => true
  | .var x => isIdentifier x.toList
  | .name word => isFunctionName word.toList
  | .symbol _ => true

/-- Whether a leaf is no infinite number; there are no numerals for these. -/
def isFinite : Token → Bool
  | .literal (.number x) => Decimal.isFinite x
  | _ => true

def written : Token → Token
  | .literal (.number x) => if Decimal.isFinite x then .literal (.number x) else .name "inf"
  | t => t

theorem written_of_isFinite (t : Token) (h : t.isFinite = true) : t.written = t := by
  unfold written
  split
  · exact if_pos h
  · rfl

end Token

def spellable (e : Expr) : Bool := e.leaves.all Token.isSpellable

def finite (e : Expr) : Bool := e.leaves.all Token.isFinite

end Expr

def BinaryOp.token : BinaryOp → Expr.Symbol
  | or => .or
  | xor => .xor
  | and => .and
  | eq => .equalEqual
  | ne => .bangEqual
  | lt => .less
  | le => .lessEqual
  | gt => .greater
  | ge => .greaterEqual
  | add => .plus
  | sub => .minus
  | mul => .star
  | div => .slash

def UnaryOp.token : UnaryOp → Expr.Symbol
  | negate => .minus
  | not => .not

theorem BinaryOp.chars_token (op : BinaryOp) : op.token.chars = op.symbol.toList := by
  cases op <;> rfl

theorem UnaryOp.chars_token (op : UnaryOp) : op.token.chars = op.symbol.toList := by
  cases op <;> rfl

namespace Expr

def enclosed (needed : Bool) (ts : List Token) : List Token :=
  if needed then .symbol .openParen :: ts ++ [.symbol .closeParen] else ts

mutual

def tokens : Expr → List Token
  | .literal _ value => [(Token.literal value).written]
  | .var _ name => [.var name]
  | .call _ name args =>
    .name name :: .symbol .openParen :: argumentTokens args ++ [.symbol .closeParen]
  | .unary _ op operand => .symbol op.token :: enclosed (operand.precedence < 7) operand.tokens
  | .binary _ op left right =>
    enclosed (left.precedence < op.precedence) left.tokens ++
      .symbol op.token :: enclosed (right.precedence ≤ op.precedence) right.tokens

def argumentTokens : List Expr → List Token
  | [] => []
  | [e] => e.tokens
  | e :: es => e.tokens ++ .symbol .comma :: argumentTokens es

end

/-! ### Spelling -/

/-- In front of `rest`, the text `cs` is scanned to the tokens `ts`. -/
def Spells (cs : List Char) (ts : List Token) (rest : List Char) : Prop :=
  ∀ offset, ∃ lexemes stop, lexemes.map Lexeme.token = ts ∧
    scanFrom offset (cs ++ rest) = (scanFrom stop rest).map (lexemes ++ ·)

theorem Spells.append {a b rest : List Char} {ts us : List Token} (ha : Spells a ts (b ++ rest))
    (hb : Spells b us rest) : Spells (a ++ b) (ts ++ us) rest := by
  intro offset
  obtain ⟨first, middle, hf, hsf⟩ := ha offset
  obtain ⟨second, stop, hs, hss⟩ := hb middle
  refine ⟨first ++ second, stop, by simp [hf, hs], ?_⟩
  rw [List.append_assoc, hsf, hss]
  cases scanFrom stop rest with
  | error e => rfl
  | ok more => simp [Except.map]

theorem spells_nil (rest : List Char) : Spells [] [] rest := by
  intro offset
  refine ⟨[], offset, rfl, ?_⟩
  rw [List.nil_append]
  cases scanFrom offset rest <;> rfl

theorem spells_skipped (c : Char) (rest : List Char) (h : isSkipped c = true) :
    Spells [c] [] rest := by
  intro offset
  refine ⟨[], offset + c.utf8Size, rfl, ?_⟩
  rw [List.singleton_append, scanFrom, if_pos h]
  cases scanFrom (offset + c.utf8Size) rest <;> rfl

theorem spells_token (c : Char) (cs rest : List Char) (t : Token) (hs : isSkipped c = false)
    (ht : tokenAt (c :: cs ++ rest) = some (t, (c :: cs).length)) :
    Spells (c :: cs) [t] rest := by
  intro offset
  refine ⟨[⟨t, offset, offset + Text.byteLength (c :: cs)⟩],
    offset + Text.byteLength (c :: cs), rfl, ?_⟩
  have htake : (c :: cs ++ rest).take (c :: cs).length = c :: cs := List.take_left
  have hdrop : (c :: cs ++ rest).drop (c :: cs).length = rest := List.drop_left
  rw [List.cons_append] at ht htake hdrop ⊢
  rw [scanFrom, if_neg (by simp [hs])]
  split
  · rename_i hn
    rw [ht] at hn
    cases hn
  · rename_i token n hn
    rw [ht] at hn
    cases hn
    simp only [htake, hdrop]
    cases scanFrom (offset + Text.byteLength (c :: cs)) rest <;> rfl

theorem spells_symbol (s : Symbol) (rest : List Char) (h : rest.head? ≠ some '=') :
    Spells s.chars [.symbol s] rest := by
  cases rest with
  | nil => cases s <;> exact spells_token _ _ _ _ (by decide) (by rfl)
  | cons c rest =>
    have hc : c ≠ '=' := by simpa using h
    cases s <;>
      exact spells_token _ _ _ _ (by decide)
        (by simp [Symbol.chars, tokenAt, isWordStart, Char.isAlpha, Char.isUpper, Char.isLower,
              numberGroups, Char.isDigit, fractionGroup, symbolAt, hc])

theorem spells_punctuation (s : Symbol) (rest : List Char)
    (h : s = .openParen ∨ s = .closeParen ∨ s = .comma) : Spells s.chars [.symbol s] rest := by
  rcases h with h | h | h <;> (rw [h]; exact spells_token _ _ _ _ (by decide) (by rfl))

/-- The rest does not go on with a word or a numeral. -/
def Ends (rest : List Char) : Prop := ∀ c ∈ rest.head?, isWordPart c = false ∧ c ≠ '.'

theorem ends_cons (c : Char) (rest : List Char) (h : isWordPart c = false) (hp : c ≠ '.') :
    Ends (c :: rest) := by
  intro d hd
  cases hd
  exact ⟨h, hp⟩

theorem ends_nil : Ends [] := by
  intro d hd
  cases hd

theorem takeWhile_append_of_stops {test : Char → Bool} (cs : List Char) {rest : List Char}
    (hr : ∀ c ∈ rest.head?, test c = false) : (cs ++ rest).takeWhile test = cs.takeWhile test := by
  induction cs with
  | nil =>
    cases rest with
    | nil => rfl
    | cons c rest => simp [hr c rfl]
  | cons c cs ih => simp only [List.cons_append, List.takeWhile_cons, ih]

theorem dropWhile_append_of_stops {test : Char → Bool} (cs : List Char) {rest : List Char}
    (hr : ∀ c ∈ rest.head?, test c = false) :
    (cs ++ rest).dropWhile test = cs.dropWhile test ++ rest := by
  induction cs with
  | nil =>
    cases rest with
    | nil => rfl
    | cons c rest => simp [hr c rfl]
  | cons c cs ih =>
    simp only [List.cons_append, List.dropWhile_cons, ih]
    split <;> rfl

theorem takeWhile_append_of_head {test : Char → Bool} (cs rest : List Char)
    (hc : cs.all test = true) (hr : ∀ c ∈ rest.head?, test c = false) :
    (cs ++ rest).takeWhile test = cs := by
  rw [takeWhile_append_of_stops cs hr]
  exact List.takeWhile_eq_self_iff.2 (List.all_eq_true.1 hc)

theorem dropWhile_append_of_head {test : Char → Bool} (cs rest : List Char)
    (hc : cs.all test = true) (hr : ∀ c ∈ rest.head?, test c = false) :
    (cs ++ rest).dropWhile test = rest := by
  rw [dropWhile_append_of_stops cs hr, List.dropWhile_eq_nil_iff.2 (List.all_eq_true.1 hc),
    List.nil_append]

theorem ne_of_isWordPart {c d : Char} (hc : isWordPart c = true) (hd : isWordPart d = false) :
    c ≠ d := by
  rintro rfl
  rw [hc] at hd
  cases hd

theorem isSkipped_of_isWordPart (c : Char) (h : isWordPart c = true) : isSkipped c = false := by
  simp only [isSkipped, Bool.or_eq_false_iff, beq_eq_false_iff_ne]
  refine ⟨⟨⟨⟨?_, ?_⟩, ?_⟩, ?_⟩, ?_⟩ <;> exact ne_of_isWordPart h (by decide)

theorem isWordPart_of_isWordStart (c : Char) (h : isWordStart c = true) : isWordPart c = true := by
  simp only [isWordStart, isWordPart, Char.isAlphanum, Bool.or_eq_true] at h ⊢
  rcases h with h | h
  · exact Or.inl (Or.inl h)
  · exact Or.inr h

theorem isWordPart_of_isDigit (c : Char) (h : c.isDigit = true) : isWordPart c = true := by
  simp [isWordPart, Char.isAlphanum, h]

theorem tokenAt_of_isWordPart (c : Char) (rest : List Char) (h : isWordPart c = true) :
    tokenAt (c :: rest) =
      if isWordStart c then
        some (Token.ofWord (c :: rest.takeWhile isWordPart), (c :: rest.takeWhile isWordPart).length)
      else
        match numberGroups (c :: rest) with
        | ([], []) => (symbolAt (c :: rest)).map fun s => (.symbol s, s.chars.length)
        | (whole, fraction) =>
          some (.literal (.number (Decimal.ofGroups whole fraction).toFloat),
            numberLength whole fraction) := by
  have hq : c ≠ '"' := ne_of_isWordPart h (by decide)
  have hd : c ≠ '$' := ne_of_isWordPart h (by decide)
  unfold tokenAt
  split
  · rename_i he
    cases he
  · rename_i he
    cases he
    exact absurd rfl hq
  · rename_i he
    cases he
    exact absurd rfl hd
  · rename_i he
    cases he
    rfl

theorem spells_word (word rest : List Char) (hw : isIdentifier word = true) (hr : Ends rest) :
    Spells word [Token.ofWord word] rest := by
  cases word with
  | nil => cases hw
  | cons c cs =>
    simp only [isIdentifier, Bool.and_eq_true] at hw
    obtain ⟨hc, hcs⟩ := hw
    have htake := takeWhile_append_of_head cs rest hcs fun d hd => (hr d hd).1
    have hp := isWordPart_of_isWordStart c hc
    refine spells_token c cs rest _ (isSkipped_of_isWordPart c hp) ?_
    rw [List.cons_append, tokenAt_of_isWordPart c _ hp, if_pos hc, htake]

theorem spells_var (word rest : List Char) (hw : isIdentifier word = true) (hr : Ends rest) :
    Spells ('$' :: word) [.var (String.ofList word)] rest := by
  cases word with
  | nil => cases hw
  | cons c cs =>
    simp only [isIdentifier, Bool.and_eq_true] at hw
    obtain ⟨hc, hcs⟩ := hw
    have htake := takeWhile_append_of_head cs rest hcs fun d hd => (hr d hd).1
    refine spells_token '$' (c :: cs) rest _ (by decide) ?_
    simp [tokenAt, variableName, hc, htake, Nat.add_comm]

theorem stringBody_escapedChar (c : Char) (rest : List Char) :
    stringBody (escapedChar c ++ rest) = (stringBody rest).push c (escapedChar c).length := by
  unfold escapedChar
  split
  · simp [stringBody, unescapeChar]
  · simp [stringBody, unescapeChar]
  · simp [stringBody, unescapeChar]
  · simp [stringBody, unescapeChar]
  · rename_i hq hb hn ht
    have hp : stringBody (c :: rest) = (stringBody rest).push c 1 := by
      rw [stringBody]
      · exact hq
      · intro h _
        exact hb h
      · intro d ds h _
        exact hb h
    exact hp

theorem stringBody_escaped (cs rest : List Char) :
    stringBody (cs.flatMap escapedChar ++ '"' :: rest) =
      ⟨cs, (cs.flatMap escapedChar).length + 1, true⟩ := by
  induction cs with
  | nil => simp [stringBody]
  | cons c cs ih =>
    rw [List.flatMap_cons, List.append_assoc, stringBody_escapedChar, ih, List.length_append]
    simp [StringBody.push, Nat.add_assoc]

theorem spells_string (cs rest : List Char) :
    Spells ('"' :: cs.flatMap escapedChar ++ ['"']) [.literal (.string (String.ofList cs))] rest := by
  refine spells_token '"' (cs.flatMap escapedChar ++ ['"']) rest _ (by decide) ?_
  have hb := stringBody_escaped cs rest
  simp [tokenAt, hb, Nat.add_comm]

theorem numberGroups_chars (d : Decimal) (rest : List Char) (hr : Ends rest) :
    numberGroups (d.chars ++ rest) = (d.wholeDigits, d.fractionDigits) := by
  have hw : d.wholeDigits.all Char.isDigit = true :=
    List.all_eq_true.2 fun c hc => d.isDigit_of_mem_wholeDigits c hc
  have hf : d.fractionDigits.all Char.isDigit = true :=
    List.all_eq_true.2 fun c hc => Decimal.isDigit_of_mem_lastDigits _ _ c hc
  have hdigit : ∀ c ∈ rest.head?, c.isDigit = false := by
    intro c hc
    have h := (hr c hc).1
    simp only [isWordPart, Char.isAlphanum, Bool.or_eq_false_iff] at h
    exact h.1.2
  unfold numberGroups Decimal.chars
  split
  · rename_i hs
    rw [takeWhile_append_of_head _ _ hw hdigit, dropWhile_append_of_head _ _ hw hdigit]
    have hnil : d.fractionDigits = [] := by
      simp [Decimal.fractionDigits, hs, Decimal.lastDigits]
    rw [hnil]
    unfold fractionGroup
    split
    · rename_i cs
      exact absurd rfl (hr '.' rfl).2
    · rfl
  · rw [List.append_assoc]
    have hpoint : ∀ c ∈ (('.' :: d.fractionDigits) ++ rest).head?, c.isDigit = false := by
      intro c hc
      cases hc
      decide
    rw [takeWhile_append_of_head _ _ hw hpoint, dropWhile_append_of_head _ _ hw hpoint]
    simp only [List.cons_append, fractionGroup]
    rw [takeWhile_append_of_head _ _ hf hdigit]

theorem length_chars (d : Decimal) :
    d.chars.length = numberLength d.wholeDigits d.fractionDigits := by
  unfold Decimal.chars numberLength
  have hl : d.fractionDigits.length = d.scale := Decimal.length_lastDigits _ _
  by_cases hs : d.scale = 0
  · have hnil : d.fractionDigits = [] := List.length_eq_zero_iff.1 (hl.trans hs)
    rw [if_pos hs, if_pos hnil]
  · have hne : d.fractionDigits ≠ [] := by
      intro hnil
      rw [hnil] at hl
      exact hs hl.symm
    rw [if_neg hs, if_neg hne, List.length_append, List.length_cons]
    omega

theorem isWordStart_of_isDigit (c : Char) (h : c.isDigit = true) : isWordStart c = false := by
  simp only [Char.isDigit, Bool.and_eq_true, decide_eq_true_eq, ge_iff_le,
    UInt32.le_iff_toNat_le] at h
  have h0 : '0'.val.toNat = 48 := rfl
  have h9 : '9'.val.toNat = 57 := rfl
  have hA : 'A'.val.toNat = 65 := rfl
  have ha : 'a'.val.toNat = 97 := rfl
  have hu : '_'.val.toNat = 95 := rfl
  cases hs : isWordStart c with
  | false => rfl
  | true =>
    simp only [isWordStart, Char.isAlpha, Char.isUpper, Char.isLower, Bool.or_eq_true,
      Bool.and_eq_true, decide_eq_true_eq, beq_iff_eq, ge_iff_le, UInt32.le_iff_toNat_le] at hs
    rcases hs with (hs | hs) | hs
    · omega
    · omega
    · rw [hs] at h
      omega

theorem chars_eq_digit_cons (d : Decimal) : ∃ c cs, d.chars = c :: cs ∧ c.isDigit = true := by
  cases hw : d.wholeDigits with
  | nil => exact absurd hw d.wholeDigits_ne_nil
  | cons c cs =>
    have hc : c.isDigit = true :=
      d.isDigit_of_mem_wholeDigits c (by rw [hw]; exact List.mem_cons_self)
    unfold Decimal.chars
    rw [hw]
    split
    · exact ⟨c, cs, rfl, hc⟩
    · exact ⟨c, cs ++ '.' :: d.fractionDigits, rfl, hc⟩

theorem spells_number (d : Decimal) (rest : List Char) (hr : Ends rest) :
    Spells d.chars [.literal (.number d.toFloat)] rest := by
  have hg := numberGroups_chars d rest hr
  have hl := length_chars d
  obtain ⟨c, cs, hc, hdc⟩ := chars_eq_digit_cons d
  have hws := isWordStart_of_isDigit c hdc
  have hp := isWordPart_of_isDigit c hdc
  rw [hc] at hg hl ⊢
  refine spells_token c cs rest _ (isSkipped_of_isWordPart c hp) ?_
  rw [List.cons_append] at hg ⊢
  rw [hl, tokenAt_of_isWordPart c _ hp, if_neg (by simp [hws]), hg]
  split
  · rename_i he
    exact absurd (Prod.mk.inj he).1 d.wholeDigits_ne_nil
  · rename_i he
    obtain ⟨hw, hf⟩ := Prod.mk.inj he
    rw [← hw, ← hf, Decimal.ofGroups_groups]

/-! ### Expressions -/

theorem spells_literal (value : Value) (rest : List Char)
    (hv : (Token.literal value).isSpellable = true) (hr : Ends rest) :
    Spells (literalChars value) [(Token.literal value).written] rest := by
  cases value with
  | number x =>
    have hu : Decimal.isUnsigned x = true := hv
    rw [literalChars, Decimal.floatChars_of_isUnsigned x hu, Token.written]
    by_cases hf : Decimal.isFinite x = true
    · have hn := spells_number (Decimal.shortest x.toBits.toNat) rest hr
      rw [Decimal.toFloat_shortest x hu hf] at hn
      rw [if_pos hf, if_pos hf]
      exact hn
    · rw [if_neg hf, if_neg hf]
      exact spells_word "inf".toList rest (by decide) hr
  | string s =>
    have hs := spells_string s.toList rest
    rw [String.ofList_toList] at hs
    exact hs
  | bool b =>
    cases b with
    | true => exact spells_word "true".toList rest (by decide) hr
    | false => exact spells_word "false".toList rest (by decide) hr

theorem spells_parenthesized {cs rest : List Char} {ts : List Token} (needed : Bool)
    (h : ∀ rest, Ends rest → Spells cs ts rest) (hr : Ends rest) :
    Spells (parenthesized needed cs) (enclosed needed ts) rest := by
  cases needed with
  | false => exact h rest hr
  | true =>
    have hopen := spells_punctuation .openParen (cs ++ [')'] ++ rest) (Or.inl rfl)
    have hinner := h ([')'] ++ rest) (ends_cons _ _ (by decide) (by decide))
    have hclose := spells_punctuation .closeParen rest (Or.inr (Or.inl rfl))
    exact hopen.append (hinner.append hclose)

/-- What an operator may stand directly in front of: something, but not its second half. -/
def Follows (cs : List Char) : Prop := ∃ c rest, cs = c :: rest ∧ c ≠ '='

theorem Follows.head {cs : List Char} (h : Follows cs) (rest : List Char) :
    (cs ++ rest).head? ≠ some '=' := by
  obtain ⟨c, cs', rfl, hc⟩ := h
  simpa using hc

theorem follows_parenthesized {cs : List Char} (needed : Bool) (h : Follows cs) :
    Follows (parenthesized needed cs) := by
  cases needed with
  | false => exact h
  | true => exact ⟨'(', cs ++ [')'], rfl, by decide⟩

theorem follows_of_isIdentifier (word rest : List Char) (h : isIdentifier word = true) :
    Follows (word ++ rest) := by
  cases word with
  | nil => cases h
  | cons c cs =>
    simp only [isIdentifier, Bool.and_eq_true] at h
    exact ⟨c, cs ++ rest, rfl,
      ne_of_isWordPart (isWordPart_of_isWordStart c h.1) (by decide)⟩

theorem follows_literalChars (value : Value) (h : (Token.literal value).isSpellable = true) :
    Follows (literalChars value) := by
  cases value with
  | number x =>
    rw [literalChars, Decimal.floatChars_of_isUnsigned x h]
    split
    · obtain ⟨c, cs, hc, hd⟩ := chars_eq_digit_cons (Decimal.shortest x.toBits.toNat)
      exact ⟨c, cs, hc, ne_of_isWordPart (isWordPart_of_isDigit c hd) (by decide)⟩
    · exact ⟨_, _, rfl, by decide⟩
  | string s => exact ⟨_, _, rfl, by decide⟩
  | bool b =>
    cases b with
    | true => exact ⟨_, _, rfl, by decide⟩
    | false => exact ⟨_, _, rfl, by decide⟩

theorem isIdentifier_of_isFunctionName (word : List Char) (h : isFunctionName word = true) :
    isIdentifier word = true := by
  simp only [isFunctionName, Bool.and_eq_true] at h
  exact h.1

theorem ofWord_of_isFunctionName (name : String) (h : isFunctionName name.toList = true) :
    Token.ofWord name.toList = .name name := by
  simp only [isFunctionName, Bool.and_eq_true, Option.isNone_iff_eq_none] at h
  rw [Token.ofWord, h.2, String.ofList_toList]

theorem spellable_literal {line : Nat} {value : Value}
    (h : (Expr.literal line value).spellable = true) :
    (Token.literal value).isSpellable = true := by
  simpa [spellable, leaves] using h

theorem spellable_var {line : Nat} {name : String} (h : (Expr.var line name).spellable = true) :
    isIdentifier name.toList = true := by
  simpa [spellable, leaves, Token.isSpellable] using h

theorem spellable_call {line : Nat} {name : String} {args : List Expr}
    (h : (Expr.call line name args).spellable = true) :
    isFunctionName name.toList = true ∧ (argumentLeaves args).all Token.isSpellable = true := by
  simpa only [spellable, leaves, List.all_cons, Token.isSpellable, Bool.and_eq_true] using h

theorem spellable_binary {line : Nat} {op : BinaryOp} {left right : Expr}
    (h : (Expr.binary line op left right).spellable = true) :
    left.spellable = true ∧ right.spellable = true := by
  simpa only [spellable, leaves, List.all_append, Bool.and_eq_true] using h

theorem follows_chars : ∀ (e : Expr), e.spellable = true → Follows e.chars
  | .literal _ value, h => follows_literalChars value (spellable_literal h)
  | .var _ name, _ => ⟨_, _, rfl, by decide⟩
  | .call _ name args, h => by
    rw [chars, List.append_assoc]
    exact follows_of_isIdentifier _ _ (isIdentifier_of_isFunctionName _ (spellable_call h).1)
  | .unary _ op operand, _ => by
    cases op with
    | negate => exact ⟨_, _, rfl, by decide⟩
    | not => exact ⟨_, _, rfl, by decide⟩
  | .binary _ op left right, h => by
    obtain ⟨c, cs, hc, hne⟩ := follows_parenthesized (left.precedence < op.precedence)
      (follows_chars left (spellable_binary h).1)
    rw [chars, hc]
    exact ⟨c, _, rfl, hne⟩

mutual

/-- The text of an expression is scanned to its tokens. -/
theorem spells_chars : ∀ (e : Expr) (rest : List Char), e.spellable = true → Ends rest →
    Spells e.chars e.tokens rest
  | .literal _ value, rest, h, hr => spells_literal value rest (spellable_literal h) hr
  | .var _ name, rest, h, hr => by
    have hv := spells_var name.toList rest (spellable_var h) hr
    rw [String.ofList_toList] at hv
    exact hv
  | .call _ name args, rest, h, hr => by
    obtain ⟨hn, ha⟩ := spellable_call h
    have hname := spells_word name.toList ('(' :: argumentChars args ++ [')'] ++ rest)
      (isIdentifier_of_isFunctionName _ hn) (ends_cons _ _ (by decide) (by decide))
    rw [ofWord_of_isFunctionName name hn] at hname
    have hopen := spells_punctuation .openParen (argumentChars args ++ [')'] ++ rest) (Or.inl rfl)
    have hargs := spells_argumentChars args ([')'] ++ rest) ha
      (ends_cons _ _ (by decide) (by decide))
    have hclose := spells_punctuation .closeParen rest (Or.inr (Or.inl rfl))
    have hall := hname.append (hopen.append (hargs.append hclose))
    rw [chars, tokens, List.append_assoc]
    exact hall
  | .unary _ op operand, rest, h, hr => by
    have hoperand := spells_parenthesized (operand.precedence < 7)
      (fun rest hr => spells_chars operand rest h hr) hr
    have hop := spells_symbol op.token (parenthesized (operand.precedence < 7) operand.chars ++ rest)
      ((follows_parenthesized _ (follows_chars operand h)).head rest)
    rw [chars, tokens, ← UnaryOp.chars_token]
    exact hop.append hoperand
  | .binary _ op left right, rest, h, hr => by
    obtain ⟨hleft, hright⟩ := spellable_binary h
    have hr' := spells_parenthesized (right.precedence ≤ op.precedence)
      (fun rest hr => spells_chars right rest hright hr) hr
    have hbehind := (spells_skipped ' ' _ (by decide)).append hr'
    have hop := (spells_symbol op.token _ (by simp)).append hbehind
    have hbefore := (spells_skipped ' ' _ (by decide)).append hop
    rw [chars, tokens, ← BinaryOp.chars_token, List.append_assoc]
    refine Spells.append (spells_parenthesized _ (fun rest hr => spells_chars left rest hleft hr) ?_)
      hbefore
    exact ends_cons ' ' _ (by decide) (by decide)

theorem spells_argumentChars : ∀ (es : List Expr) (rest : List Char),
    (argumentLeaves es).all Token.isSpellable = true → Ends rest →
    Spells (argumentChars es) (argumentTokens es) rest
  | [], rest, _, _ => spells_nil rest
  | [e], rest, h, hr => by
    rw [argumentLeaves, argumentLeaves, List.append_nil] at h
    exact spells_chars e rest h hr
  | e :: e' :: es, rest, h, hr => by
    rw [argumentLeaves, List.all_append, Bool.and_eq_true] at h
    have hrest := spells_argumentChars (e' :: es) rest h.2 hr
    have hspace := (spells_skipped ' ' _ (by decide)).append hrest
    have hcomma := (spells_punctuation .comma _ (Or.inr (Or.inr rfl))).append hspace
    have he := spells_chars e (',' :: ' ' :: argumentChars (e' :: es) ++ rest) h.1
      (ends_cons _ _ (by decide) (by decide))
    exact he.append hcomma

end

theorem scan_of_spells {cs : List Char} {ts : List Token} (h : Spells cs ts []) :
    ∃ lexemes, lexemes.map Lexeme.token = ts ∧ scan cs = .ok lexemes := by
  obtain ⟨lexemes, stop, hl, hs⟩ := h 0
  refine ⟨lexemes, hl, ?_⟩
  rw [List.append_nil, scanFrom] at hs
  rw [scan, hs]
  simp [Except.map]

end Expr

end Dialogue
