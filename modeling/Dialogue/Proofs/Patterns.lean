import Mathlib.Computability.Language
import Dialogue.Proofs.Leaves

/-!
# The rules of expression tokens

Each kind of token has a rule: the texts that it matches, as a regular language, and the
token that such a text gives. Symbols and keywords match one text each. The scanner
looks for a token without these rules; here it is shown to find the longest text that
any rule matches (`longest_of_tokenAt`), and to find one whenever there is one
(`tokenAt_of_mem`). Two rules can match the same text only where a word is a keyword.
-/

namespace Dialogue

namespace Expr

open Computability

def oneOf (s : Set Char) : Language Char := ({cs | ∃ c ∈ s, cs = [c]} : Set (List Char))

def digit : Set Char := {c | '0' ≤ c ∧ c ≤ '9'}

def wordStart : Set Char := {c | ('A' ≤ c ∧ c ≤ 'Z') ∨ ('a' ≤ c ∧ c ≤ 'z') ∨ c = '_'}

def digits : Language Char := oneOf digit * (oneOf digit)∗

def word : Language Char := oneOf wordStart * (oneOf (wordStart ∪ digit))∗

/-- What a string may be put together from: characters that are neither a quote nor a backslash,
and backslashes with the character behind them, which is no line feed. -/
def stringPart : Language Char := oneOf {c | c ≠ '"' ∧ c ≠ '\\'} + {['\\']} * oneOf {c | c ≠ '\n'}

/-- The texts that a kind of token may have, and the token that each of them gives. -/
structure Rule where
  language : Language Char
  token : List Char → Token

/-- The characters that the inside of a string stands for. -/
def unescaped : List Char → List Char
  | '\\' :: c :: cs => unescapeChar c :: unescaped cs
  | c :: cs => c :: unescaped cs
  | [] => []

namespace Rule

def fixed (text : List Char) (t : Token) : Rule := ⟨{text}, fun _ => t⟩

def numberOf (text : List Char) : Token :=
  .literal (.number (Decimal.ofGroups (numberGroups text).1 (numberGroups text).2).toFloat)

def number : Rule := ⟨digits * (1 + {['.']} * digits), numberOf⟩

def fraction : Rule := ⟨{['.']} * digits, numberOf⟩

def string : Rule :=
  ⟨{['"']} * stringPart∗ * {['"']},
    fun text => .literal (.string (String.ofList (unescaped text.tail.dropLast)))⟩

def reference : Rule := ⟨{['$']} * word, fun text => .var (String.ofList text.tail)⟩

def identifier : Rule := ⟨word, fun text => .name (String.ofList text)⟩

end Rule

def Symbol.all : List Symbol :=
  [openParen, closeParen, comma, plus, minus, star, slash, assign, plusAssign, minusAssign,
    starAssign, slashAssign, equalEqual, bangEqual, less, lessEqual, greater, greaterEqual, and, or,
    xor, not]

theorem Symbol.mem_all (s : Symbol) : s ∈ all := by
  cases s <;> decide

def rules : List Rule :=
  Symbol.all.map (fun s => .fixed s.chars (.symbol s)) ++
    Token.keywords.map (fun k => .fixed k.1 k.2) ++
    [.number, .fraction, .string, .reference, .identifier]

/-- The longest text that a rule matches where `rest` begins, with the token it gives. A word is
read as a whole, and gives the token of a keyword if it is this keyword, and a name otherwise. -/
structure Longest (rest text : List Char) (t : Token) : Prop where
  begins : text <+: rest
  rule : ∃ rule ∈ rules, text ∈ rule.language ∧ t = rule.token text
  longest : ∀ rule ∈ rules, ∀ other ∈ rule.language, other <+: rest → other.length ≤ text.length
  word : ∀ c ∈ text.head?, c ∈ wordStart → text = rest.takeWhile isWordPart ∧
    ((text, t) ∈ Token.keywords ∨
      text ∉ Token.keywords.map Prod.fst ∧ t = .name (String.ofList text))

theorem mem_digit (c : Char) : c ∈ digit ↔ c.isDigit = true := by
  simp [digit, Char.isDigit, Char.le_def]

theorem mem_wordStart (c : Char) : c ∈ wordStart ↔ isWordStart c = true := by
  simp [wordStart, isWordStart, Char.isAlpha, Char.isUpper, Char.isLower, Char.le_def, or_assoc]

theorem mem_wordPart (c : Char) : c ∈ wordStart ∪ digit ↔ isWordPart c = true := by
  rw [Set.mem_union, mem_wordStart, mem_digit]
  simp only [isWordStart, isWordPart, Char.isAlphanum, Bool.or_eq_true]
  tauto

theorem mem_kstar_oneOf {s : Set Char} {cs : List Char} :
    cs ∈ (oneOf s)∗ ↔ ∀ c ∈ cs, c ∈ s := by
  rw [Language.mem_kstar]
  constructor
  · rintro ⟨parts, rfl, hparts⟩ c hc
    obtain ⟨part, hpart, hc⟩ := List.mem_flatten.1 hc
    obtain ⟨d, hd, rfl⟩ := hparts part hpart
    rwa [List.mem_singleton.1 hc]
  · intro h
    refine ⟨cs.map fun c => [c], (List.flatMap_singleton' cs).symm, fun part hpart => ?_⟩
    obtain ⟨c, hc, rfl⟩ := List.mem_map.1 hpart
    exact ⟨c, h c hc, rfl⟩

theorem mem_oneOf_mul {s : Set Char} {l : Language Char} {cs : List Char} :
    cs ∈ oneOf s * l ↔ ∃ c ∈ s, ∃ rest ∈ l, cs = c :: rest := by
  rw [Language.mem_mul]
  constructor
  · rintro ⟨_, ⟨c, hc, rfl⟩, rest, hrest, rfl⟩
    exact ⟨c, hc, rest, hrest, rfl⟩
  · rintro ⟨c, hc, rest, hrest, rfl⟩
    exact ⟨[c], ⟨c, hc, rfl⟩, rest, hrest, rfl⟩

theorem mem_char_mul {c : Char} {l : Language Char} {cs : List Char} :
    cs ∈ ({[c]} : Language Char) * l ↔ ∃ rest ∈ l, cs = c :: rest := by
  rw [Language.mem_mul]
  constructor
  · rintro ⟨_, rfl, rest, hrest, rfl⟩
    exact ⟨rest, hrest, rfl⟩
  · rintro ⟨rest, hrest, rfl⟩
    exact ⟨[c], rfl, rest, hrest, rfl⟩

theorem mem_digits {cs : List Char} : cs ∈ digits ↔ cs ≠ [] ∧ cs.all Char.isDigit = true := by
  rw [digits, mem_oneOf_mul]
  simp only [mem_kstar_oneOf, mem_digit, List.all_eq_true]
  constructor
  · rintro ⟨c, hc, rest, hrest, rfl⟩
    exact ⟨List.cons_ne_nil _ _, List.forall_mem_cons.2 ⟨hc, hrest⟩⟩
  · rintro ⟨hne, hall⟩
    obtain ⟨c, rest, rfl⟩ := List.exists_cons_of_ne_nil hne
    exact ⟨c, hall c List.mem_cons_self, rest, fun d hd => hall d (List.mem_cons_of_mem _ hd), rfl⟩

theorem mem_word {cs : List Char} : cs ∈ word ↔ isIdentifier cs = true := by
  rw [word, mem_oneOf_mul]
  simp only [mem_kstar_oneOf, mem_wordPart, mem_wordStart]
  cases cs with
  | nil => simp [isIdentifier]
  | cons c cs => simp [isIdentifier]

theorem mem_number {cs : List Char} : cs ∈ Rule.number.language ↔
    ∃ whole ∈ digits, cs = whole ∨ ∃ fraction ∈ digits, cs = whole ++ '.' :: fraction := by
  rw [Rule.number, Language.mem_mul]
  simp only [Language.mem_add, Language.mem_one, mem_char_mul]
  constructor
  · rintro ⟨whole, hwhole, _, rfl | ⟨fraction, hfraction, rfl⟩, rfl⟩
    · exact ⟨whole, hwhole, Or.inl (List.append_nil whole)⟩
    · exact ⟨whole, hwhole, Or.inr ⟨fraction, hfraction, rfl⟩⟩
  · rintro ⟨whole, hwhole, rfl | ⟨fraction, hfraction, rfl⟩⟩
    · exact ⟨cs, hwhole, [], Or.inl rfl, List.append_nil cs⟩
    · exact ⟨whole, hwhole, _, Or.inr ⟨fraction, hfraction, rfl⟩, rfl⟩

theorem mem_string {cs : List Char} : cs ∈ Rule.string.language ↔
    ∃ inside ∈ stringPart∗, cs = '"' :: (inside ++ ['"']) := by
  rw [Rule.string, mul_assoc, mem_char_mul]
  constructor
  · rintro ⟨_, ⟨inside, hinside, _, rfl, rfl⟩, rfl⟩
    exact ⟨inside, hinside, rfl⟩
  · rintro ⟨inside, hinside, rfl⟩
    exact ⟨_, ⟨inside, hinside, _, rfl, rfl⟩, rfl⟩

theorem stringBody_plain {c : Char} (hq : c ≠ '"') (hb : c ≠ '\\') (rest : List Char) :
    stringBody (c :: rest) = (stringBody rest).push c 1 := by
  rw [stringBody]
  · exact hq
  · intro h _
    exact hb h
  · intro d ds h _
    exact hb h

theorem mem_stringPart {part : List Char} : part ∈ stringPart ↔
    (∃ c, (c ≠ '"' ∧ c ≠ '\\') ∧ part = [c]) ∨ ∃ c, c ≠ '\n' ∧ part = ['\\', c] := by
  rw [stringPart, Language.mem_add, mem_char_mul]
  refine or_congr Iff.rfl ⟨?_, ?_⟩
  · rintro ⟨_, ⟨c, hc, rfl⟩, rfl⟩
    exact ⟨c, hc, rfl⟩
  · rintro ⟨c, hc, rfl⟩
    exact ⟨[c], ⟨c, hc, rfl⟩, rfl⟩

theorem append_mem_kstar {l : Language Char} {part inside : List Char} (hp : part ∈ l)
    (hi : inside ∈ l∗) : part ++ inside ∈ l∗ := by
  obtain ⟨parts, rfl, hparts⟩ := Language.mem_kstar.1 hi
  exact Language.mem_kstar.2 ⟨part :: parts, rfl, List.forall_mem_cons.2 ⟨hp, hparts⟩⟩

/-- What matches is read up to its closing quote. -/
theorem stringBody_of_mem {inside : List Char} (h : inside ∈ stringPart∗) (rest : List Char) :
    stringBody (inside ++ '"' :: rest) = ⟨unescaped inside, inside.length + 1, true⟩ := by
  obtain ⟨parts, rfl, hparts⟩ := Language.mem_kstar.1 h
  clear h
  induction parts with
  | nil => simp [stringBody, unescaped]
  | cons part parts ih =>
    obtain ⟨hpart, hothers⟩ := List.forall_mem_cons.1 hparts
    rw [List.flatten_cons, List.append_assoc]
    obtain ⟨c, ⟨hq, hb⟩, rfl⟩ | ⟨c, hc, rfl⟩ := mem_stringPart.1 hpart
    · rw [List.singleton_append, stringBody_plain hq hb, ih hothers]
      simp [StringBody.push, unescaped, hb, Nat.add_comm, Nat.add_left_comm]
    · rw [List.cons_append, List.singleton_append, stringBody, if_neg hc, ih hothers]
      simp [StringBody.push, unescaped, Nat.add_comm, Nat.add_left_comm]

/-- What is read up to a closing quote matches. -/
theorem exists_of_closed {cs : List Char} (h : (stringBody cs).closed = true) :
    ∃ inside ∈ stringPart∗, ∃ rest, cs = inside ++ '"' :: rest := by
  fun_induction stringBody cs with
  | case1 => cases h
  | case2 rest => exact ⟨[], Language.nil_mem_kstar _, rest, rfl⟩
  | case3 => cases h
  | case4 => cases h
  | case5 c cs hc ih =>
    obtain ⟨inside, hinside, rest, rfl⟩ := ih h
    exact ⟨['\\', c] ++ inside,
      append_mem_kstar (mem_stringPart.2 (Or.inr ⟨c, hc, rfl⟩)) hinside, rest, rfl⟩
  | case6 c cs hq hlast hmore ih =>
    have hb : c ≠ '\\' := by
      intro hc
      cases cs with
      | nil => exact hlast hc rfl
      | cons d ds => exact hmore d ds hc rfl
    obtain ⟨inside, hinside, rest, rfl⟩ := ih h
    exact ⟨[c] ++ inside,
      append_mem_kstar (mem_stringPart.2 (Or.inl ⟨c, ⟨hq, hb⟩, rfl⟩)) hinside, rest, rfl⟩

/-! ### What the scanner finds -/

/-- The ways to find a token at the beginning of a text, with its length. -/
inductive Found : List Char → Token → Nat → Prop
  | string {cs : List Char} (closed : (stringBody cs).closed = true) :
    Found ('"' :: cs) (.literal (.string (String.ofList (stringBody cs).value)))
      (1 + (stringBody cs).length)
  | reference {cs : List Char} (name : variableName cs ≠ []) :
    Found ('$' :: cs) (.var (String.ofList (variableName cs))) (1 + (variableName cs).length)
  | word {c : Char} (start : isWordStart c = true) (cs : List Char) :
    Found (c :: cs) (Token.ofWord (c :: cs.takeWhile isWordPart))
      (c :: cs.takeWhile isWordPart).length
  | number {c : Char} {cs : List Char} (start : isWordStart c = false) (quote : c ≠ '"')
      (sigil : c ≠ '$')
      (digits : ¬((numberGroups (c :: cs)).1 = [] ∧ (numberGroups (c :: cs)).2 = [])) :
    Found (c :: cs) (Rule.numberOf (c :: cs))
      (numberLength (numberGroups (c :: cs)).1 (numberGroups (c :: cs)).2)
  | symbol {cs : List Char} {s : Symbol} (found : symbolAt cs = some s) :
    Found cs (.symbol s) s.chars.length

theorem tokenAt_of_reference {cs : List Char} (h : variableName cs ≠ []) :
    tokenAt ('$' :: cs) =
      some (.var (String.ofList (variableName cs)), 1 + (variableName cs).length) := by
  rw [tokenAt]
  split
  · rename_i hnone
    exact absurd hnone h
  · rfl

/-- A character that begins no word, string or variable begins a number or a symbol. -/
theorem tokenAt_cons {c : Char} {cs : List Char} (hs : isWordStart c = false) (hq : c ≠ '"')
    (hd : c ≠ '$') : tokenAt (c :: cs) =
      if (numberGroups (c :: cs)).1 = [] ∧ (numberGroups (c :: cs)).2 = [] then
        (symbolAt (c :: cs)).map fun s => (.symbol s, s.chars.length)
      else
        some (Rule.numberOf (c :: cs),
          numberLength (numberGroups (c :: cs)).1 (numberGroups (c :: cs)).2) := by
  rw [tokenAt.eq_4 c cs hq hd, if_neg (by simp [hs]), Rule.numberOf]
  split
  · rename_i hnone
    rw [hnone, if_pos ⟨rfl, rfl⟩]
  · rename_i whole fraction hsome hgroups
    rw [hgroups, if_neg fun h => hsome h.1 h.2]

theorem tokenAt_of_number {c : Char} {cs : List Char} (hs : isWordStart c = false) (hq : c ≠ '"')
    (hd : c ≠ '$') (hn : ¬((numberGroups (c :: cs)).1 = [] ∧ (numberGroups (c :: cs)).2 = [])) :
    tokenAt (c :: cs) = some (Rule.numberOf (c :: cs),
      numberLength (numberGroups (c :: cs)).1 (numberGroups (c :: cs)).2) := by
  rw [tokenAt_cons hs hq hd, if_neg hn]

theorem chars_of_symbolAt {cs : List Char} {s : Symbol} (h : symbolAt cs = some s) :
    s.chars <+: cs := by
  unfold symbolAt at h
  split at h <;> cases h <;> simp [Symbol.chars]

theorem tokenAt_of_symbolAt {cs : List Char} {s : Symbol} (h : symbolAt cs = some s) :
    tokenAt cs = some (.symbol s, s.chars.length) := by
  obtain ⟨rest, rfl⟩ := chars_of_symbolAt h
  obtain ⟨c, text, hchars, hc, hp, hq, hd⟩ : ∃ c text, s.chars = c :: text ∧
      isWordPart c = false ∧ c ≠ '.' ∧ c ≠ '"' ∧ c ≠ '$' := by
    cases s <;> exact ⟨_, _, rfl, by decide⟩
  have hdigit : c.isDigit = false := by
    by_contra hdigit
    rw [isWordPart_of_isDigit c (by simpa using hdigit)] at hc
    cases hc
  have hstart : isWordStart c = false := by
    by_contra hstart
    rw [isWordPart_of_isWordStart c (by simpa using hstart)] at hc
    cases hc
  rw [hchars, List.cons_append] at h ⊢
  rw [tokenAt_cons hstart hq hd, h]
  simp [numberGroups, hdigit, fractionGroup, hp, hchars]

theorem tokenAt_eq_some_iff {cs : List Char} {t : Token} {n : Nat} :
    tokenAt cs = some (t, n) ↔ Found cs t n := by
  constructor
  · intro h
    unfold tokenAt at h
    split at h
    · cases h
    · simp only at h
      split at h
      · rename_i hclosed
        cases h
        exact .string hclosed
      · cases h
    · split at h
      · cases h
      · rename_i hne
        cases h
        exact .reference hne
    · rename_i c rest hquote hsigil
      split at h
      · rename_i hc
        cases h
        exact .word hc rest
      · rename_i hc
        split at h
        · obtain ⟨s, hs, he⟩ := Option.map_eq_some_iff.1 h
          cases he
          exact .symbol hs
        · rename_i whole fraction hne he
          cases h
          have hnumber := @Found.number c rest (by simpa using hc) hquote hsigil
          rw [Rule.numberOf, he] at hnumber
          exact hnumber fun ⟨hw, hf⟩ => hne hw hf
  · intro h
    cases h with
    | string closed => simp [tokenAt, closed]
    | reference name => exact tokenAt_of_reference name
    | word start cs =>
      rw [tokenAt_of_isWordPart _ cs (isWordPart_of_isWordStart _ start), if_pos start]
    | number start quote sigil digits => exact tokenAt_of_number start quote sigil digits
    | symbol found => exact tokenAt_of_symbolAt found

/-! ### Every match is covered -/

/-- The scanner finds a token of this length or a longer one. -/
def Covers (cs : List Char) (length : Nat) : Prop :=
  ∃ t n, tokenAt cs = some (t, n) ∧ length ≤ n

/-- A symbol can only go on with an equals sign, to a symbol of two characters. -/
theorem symbolAt_of_chars (s : Symbol) (rest : List Char) :
    ∃ s', symbolAt (s.chars ++ rest) = some s' ∧ s.chars.length ≤ s'.chars.length := by
  cases rest with
  | nil => cases s <;> exact ⟨_, rfl, by decide⟩
  | cons c rest =>
    by_cases hc : c = '='
    · rw [hc]
      cases s <;> exact ⟨_, rfl, by decide⟩
    · refine ⟨s, ?_, Nat.le_refl _⟩
      cases s <;> simp [Symbol.chars, symbolAt, hc]

theorem covers_symbol {cs : List Char} {s : Symbol} (h : s.chars <+: cs) :
    Covers cs s.chars.length := by
  obtain ⟨rest, rfl⟩ := h
  obtain ⟨s', hs, hlength⟩ := symbolAt_of_chars s rest
  exact ⟨_, _, tokenAt_of_symbolAt hs, hlength⟩

theorem le_takeWhile {test : Char → Bool} {text rest : List Char} (h : text.all test = true) :
    text.length ≤ ((text ++ rest).takeWhile test).length := by
  rw [List.takeWhile_append_of_pos (List.all_eq_true.1 h), List.length_append]
  omega

theorem covers_word {cs text : List Char} (h : text ∈ word) (hb : text <+: cs) :
    Covers cs text.length := by
  obtain ⟨rest, rfl⟩ := hb
  rw [mem_word] at h
  cases text with
  | nil => cases h
  | cons c text =>
    simp only [isIdentifier, Bool.and_eq_true] at h
    have htoken := tokenAt_of_isWordPart c (text ++ rest) (isWordPart_of_isWordStart c h.1)
    rw [if_pos h.1] at htoken
    exact ⟨_, _, htoken, Nat.succ_le_succ (le_takeWhile h.2)⟩

theorem covers_reference {cs text : List Char} (h : text ∈ Rule.reference.language)
    (hb : text <+: cs) : Covers cs text.length := by
  obtain ⟨rest, rfl⟩ := hb
  obtain ⟨name, hname, rfl⟩ := mem_char_mul.1 h
  rw [mem_word] at hname
  cases name with
  | nil => cases hname
  | cons c name =>
    simp only [isIdentifier, Bool.and_eq_true] at hname
    have htoken : tokenAt ('$' :: c :: (name ++ rest)) =
        some (.var (String.ofList (c :: (name ++ rest).takeWhile isWordPart)),
          1 + (c :: (name ++ rest).takeWhile isWordPart).length) := by
      simp [tokenAt, variableName, hname.1]
    refine ⟨_, _, htoken, ?_⟩
    have hlength : name.length ≤ ((name ++ rest).takeWhile isWordPart).length :=
      le_takeWhile hname.2
    simp only [List.length_cons]
    omega

theorem covers_string {cs text : List Char} (h : text ∈ Rule.string.language)
    (hb : text <+: cs) : Covers cs text.length := by
  obtain ⟨rest, rfl⟩ := hb
  obtain ⟨inside, hinside, rfl⟩ := mem_string.1 h
  have hbody := stringBody_of_mem hinside rest
  refine ⟨.literal (.string (String.ofList (unescaped inside))), 1 + (inside.length + 1), ?_, ?_⟩
  · simp [tokenAt, hbody]
  · simp [Nat.add_comm]

theorem length_le_numberLength (whole fraction : List Char) :
    whole.length ≤ numberLength whole fraction := by
  unfold numberLength
  split <;> omega

theorem covers_of_numberLength {c : Char} {cs : List Char} {n : Nat} (hs : isWordStart c = false)
    (hq : c ≠ '"') (hd : c ≠ '$') (hpos : 0 < n)
    (hn : n ≤ numberLength (numberGroups (c :: cs)).1 (numberGroups (c :: cs)).2) :
    Covers (c :: cs) n := by
  refine ⟨_, _, tokenAt_of_number hs hq hd ?_, hn⟩
  rintro ⟨hwhole, hfraction⟩
  rw [hwhole, hfraction] at hn
  simp only [numberLength, if_true, List.length_nil] at hn
  omega

theorem numberGroups_point {whole : List Char} (h : whole.all Char.isDigit = true)
    (rest : List Char) :
    numberGroups (whole ++ '.' :: rest) = (whole, rest.takeWhile Char.isDigit) := by
  have hpoint : ∀ c ∈ ('.' :: rest).head?, c.isDigit = false := by
    intro c hc
    cases hc
    decide
  rw [numberGroups, takeWhile_append_of_head _ _ h hpoint, dropWhile_append_of_head _ _ h hpoint]
  rfl

theorem numberGroups_digits {whole : List Char} (h : whole.all Char.isDigit = true) :
    numberGroups whole = (whole, []) := by
  have hnone : ∀ c ∈ ([] : List Char).head?, c.isDigit = false := nofun
  have htake := takeWhile_append_of_head whole [] h hnone
  have hdrop := dropWhile_append_of_head whole [] h hnone
  rw [List.append_nil] at htake hdrop
  rw [numberGroups, htake, hdrop]
  rfl

theorem length_le_point {whole fraction rest : List Char} (hw : whole.all Char.isDigit = true)
    (hf : fraction ∈ digits) : (whole ++ '.' :: fraction).length ≤
      numberLength (numberGroups (whole ++ '.' :: (fraction ++ rest))).1
        (numberGroups (whole ++ '.' :: (fraction ++ rest))).2 := by
  obtain ⟨hne, hall⟩ := mem_digits.1 hf
  have hlength : fraction.length ≤ ((fraction ++ rest).takeWhile Char.isDigit).length :=
    le_takeWhile hall
  have hpos := List.length_pos_iff.2 hne
  have hsome : (fraction ++ rest).takeWhile Char.isDigit ≠ [] :=
    List.length_pos_iff.1 (Nat.lt_of_lt_of_le hpos hlength)
  rw [numberGroups_point hw, numberLength, if_neg hsome, List.length_append, List.length_cons]
  simp only
  omega

theorem covers_number {cs text : List Char} (h : text ∈ Rule.number.language)
    (hb : text <+: cs) : Covers cs text.length := by
  obtain ⟨rest, rfl⟩ := hb
  obtain ⟨whole, hwhole, htext⟩ := mem_number.1 h
  obtain ⟨hne, hall⟩ := mem_digits.1 hwhole
  have hlength : text.length ≤
      numberLength (numberGroups (text ++ rest)).1 (numberGroups (text ++ rest)).2 := by
    obtain rfl | ⟨fraction, hfraction, rfl⟩ := htext
    · exact Nat.le_trans (le_takeWhile hall) (length_le_numberLength _ _)
    · rw [List.append_assoc, List.cons_append]
      exact length_le_point hall hfraction
  obtain ⟨c, digits, rfl⟩ := List.exists_cons_of_ne_nil hne
  obtain ⟨tail, rfl⟩ : ∃ tail, text = c :: tail := by
    obtain rfl | ⟨fraction, -, rfl⟩ := htext
    · exact ⟨_, rfl⟩
    · exact ⟨_, rfl⟩
  have hdigit : c.isDigit = true := List.all_eq_true.1 hall c List.mem_cons_self
  have hpart := isWordPart_of_isDigit c hdigit
  exact covers_of_numberLength (isWordStart_of_isDigit c hdigit)
    (ne_of_isWordPart hpart (by decide)) (ne_of_isWordPart hpart (by decide)) (by simp) hlength

theorem covers_fraction {cs text : List Char} (h : text ∈ Rule.fraction.language)
    (hb : text <+: cs) : Covers cs text.length := by
  obtain ⟨rest, rfl⟩ := hb
  obtain ⟨fraction, hfraction, rfl⟩ := mem_char_mul.1 h
  exact covers_of_numberLength (by decide) (by decide) (by decide) (by simp)
    (@length_le_point [] fraction rest rfl hfraction)

/-- Wherever a rule matches, the scanner finds a token that is as long. -/
theorem tokenAt_of_mem {cs text : List Char} {rule : Rule} (hr : rule ∈ rules)
    (h : text ∈ rule.language) (hb : text <+: cs) : Covers cs text.length := by
  simp only [rules, List.mem_append, List.mem_map, List.mem_cons, List.not_mem_nil, or_false] at hr
  obtain (⟨s, -, rfl⟩ | ⟨k, hk, rfl⟩) | rfl | rfl | rfl | rfl | rfl := hr
  · obtain rfl : text = s.chars := h
    exact covers_symbol hb
  · obtain rfl : text = k.1 := h
    have hwords : ∀ k ∈ Token.keywords, isIdentifier k.1 = true := by decide
    exact covers_word (mem_word.2 (hwords k hk)) hb
  · exact covers_number h hb
  · exact covers_fraction h hb
  · exact covers_string h hb
  · exact covers_reference h hb
  · exact covers_word h hb

/-! ### Every token matches -/

/-- The first characters are a text that a rule matches, and give this token. -/
def Matches (cs : List Char) (t : Token) (n : Nat) : Prop :=
  ∃ text rest, cs = text ++ rest ∧ n = text.length ∧
    ∃ rule ∈ rules, text ∈ rule.language ∧ t = rule.token text

theorem mem_rules_of_symbol (s : Symbol) : Rule.fixed s.chars (.symbol s) ∈ rules :=
  List.mem_append_left _ (List.mem_append_left _ (List.mem_map.2 ⟨s, s.mem_all, rfl⟩))

theorem mem_rules_of_keyword {k : List Char × Token} (h : k ∈ Token.keywords) :
    Rule.fixed k.1 k.2 ∈ rules :=
  List.mem_append_left _ (List.mem_append_right _ (List.mem_map.2 ⟨k, h, rfl⟩))

theorem ofWord_cases (text : List Char) : (text, Token.ofWord text) ∈ Token.keywords ∨
    text ∉ Token.keywords.map Prod.fst ∧ Token.ofWord text = .name (String.ofList text) := by
  unfold Token.ofWord
  cases hk : Token.keywords.lookup text with
  | some t =>
    obtain ⟨before, behind, he, -⟩ := List.lookup_eq_some_iff.1 hk
    exact Or.inl (by rw [he]; exact List.mem_append_right _ List.mem_cons_self)
  | none =>
    refine Or.inr ⟨fun hmem => ?_, rfl⟩
    obtain ⟨k, hkey, rfl⟩ := List.mem_map.1 hmem
    simpa using List.lookup_eq_none_iff.1 hk k hkey

theorem matches_string {cs : List Char} (h : (stringBody cs).closed = true) :
    Matches ('"' :: cs) (.literal (.string (String.ofList (stringBody cs).value)))
      (1 + (stringBody cs).length) := by
  obtain ⟨inside, hinside, rest, rfl⟩ := exists_of_closed h
  rw [stringBody_of_mem hinside rest]
  refine ⟨'"' :: (inside ++ ['"']), rest, by simp, by simp [Nat.add_comm], Rule.string, ?_,
    mem_string.2 ⟨inside, hinside, rfl⟩, ?_⟩
  · simp [rules]
  · simp [Rule.string]

theorem matches_reference {cs : List Char} (h : variableName cs ≠ []) :
    Matches ('$' :: cs) (.var (String.ofList (variableName cs)))
      (1 + (variableName cs).length) := by
  have hname := isIdentifier_variableName h
  obtain ⟨rest, hrest⟩ : ∃ rest, cs = variableName cs ++ rest := by
    cases cs with
    | nil => exact absurd rfl h
    | cons c cs =>
      unfold variableName at h ⊢
      simp only at h ⊢
      split
      · exact ⟨cs.dropWhile isWordPart, by simp⟩
      · rename_i hc
        exact absurd (if_neg hc) h
  refine ⟨'$' :: variableName cs, rest, ?_, ?_, Rule.reference, ?_,
    mem_char_mul.2 ⟨_, mem_word.2 hname, rfl⟩, rfl⟩
  · rw [List.cons_append, ← hrest]
  · rw [List.length_cons, Nat.add_comm]
  · simp [rules]

theorem matches_word {c : Char} (h : isWordStart c = true) (cs : List Char) :
    Matches (c :: cs) (Token.ofWord (c :: cs.takeWhile isWordPart))
      (c :: cs.takeWhile isWordPart).length := by
  refine ⟨c :: cs.takeWhile isWordPart, cs.dropWhile isWordPart, by simp, rfl, ?_⟩
  obtain hk | ⟨-, hname⟩ := ofWord_cases (c :: cs.takeWhile isWordPart)
  · exact ⟨_, mem_rules_of_keyword hk, rfl, rfl⟩
  · exact ⟨.identifier, by simp [rules], mem_word.2 (isIdentifier_takeWhile c cs h), hname⟩

theorem matches_symbol {cs : List Char} {s : Symbol} (h : symbolAt cs = some s) :
    Matches cs (.symbol s) s.chars.length := by
  obtain ⟨rest, rfl⟩ := chars_of_symbolAt h
  exact ⟨s.chars, rest, rfl, rfl, _, mem_rules_of_symbol s, rfl, rfl⟩

theorem matches_digits {whole : List Char} (h : whole ∈ digits) (rest : List Char) :
    Matches (whole ++ rest) (.literal (.number (Decimal.ofGroups whole []).toFloat))
      whole.length := by
  have htoken : Rule.numberOf whole = .literal (.number (Decimal.ofGroups whole []).toFloat) := by
    rw [Rule.numberOf, numberGroups_digits (mem_digits.1 h).2]
  exact ⟨whole, rest, rfl, rfl, .number, by simp [rules],
    mem_number.2 ⟨whole, h, Or.inl rfl⟩, htoken.symm⟩

theorem matches_point {whole fraction : List Char} (hw : whole.all Char.isDigit = true)
    (hf : fraction ∈ digits) (rest : List Char) :
    Matches (whole ++ '.' :: (fraction ++ rest))
      (.literal (.number (Decimal.ofGroups whole fraction).toFloat))
      (whole.length + 1 + fraction.length) := by
  have htoken : Rule.numberOf (whole ++ '.' :: fraction) =
      .literal (.number (Decimal.ofGroups whole fraction).toFloat) := by
    have htake := takeWhile_append_of_head fraction [] (mem_digits.1 hf).2 nofun
    rw [List.append_nil] at htake
    rw [Rule.numberOf, numberGroups_point hw, htake]
  refine ⟨whole ++ '.' :: fraction, rest, by simp, by simp; omega, ?_⟩
  by_cases hne : whole = []
  · rw [hne] at htoken ⊢
    exact ⟨.fraction, by simp [rules], mem_char_mul.2 ⟨fraction, hf, rfl⟩, htoken.symm⟩
  · exact ⟨.number, by simp [rules],
      mem_number.2 ⟨whole, mem_digits.2 ⟨hne, hw⟩, Or.inr ⟨fraction, hf, rfl⟩⟩, htoken.symm⟩

theorem matches_number {cs : List Char}
    (h : ¬((numberGroups cs).1 = [] ∧ (numberGroups cs).2 = [])) :
    Matches cs
      (.literal (.number (Decimal.ofGroups (numberGroups cs).1 (numberGroups cs).2).toFloat))
      (numberLength (numberGroups cs).1 (numberGroups cs).2) := by
  have hall : (cs.takeWhile Char.isDigit).all Char.isDigit = true := List.all_takeWhile
  have hcs : cs.takeWhile Char.isDigit ++ cs.dropWhile Char.isDigit = cs :=
    List.takeWhile_append_dropWhile
  by_cases hf : (numberGroups cs).2 = []
  · have hwhole : (numberGroups cs).1 ∈ digits := mem_digits.2 ⟨fun hw => h ⟨hw, hf⟩, hall⟩
    have hm := matches_digits hwhole (cs.dropWhile Char.isDigit)
    rw [numberGroups, hcs] at hm
    rw [numberLength, if_pos hf, hf]
    exact hm
  · rw [numberLength, if_neg hf]
    have hf' : fractionGroup (cs.dropWhile Char.isDigit) ≠ [] := hf
    simp only [numberGroups]
    unfold fractionGroup at hf' ⊢
    split at hf'
    · rename_i rest hrest
      have hm := matches_point hall (mem_digits.2 ⟨hf', List.all_takeWhile⟩)
        (rest.dropWhile Char.isDigit)
      rw [List.takeWhile_append_dropWhile, ← hrest, hcs] at hm
      exact hm
    · exact absurd rfl hf'

/-- The token that the scanner finds is given by a rule. -/
theorem Found.matches {cs : List Char} {t : Token} {n : Nat} (h : Found cs t n) :
    Matches cs t n := by
  cases h with
  | string closed => exact matches_string closed
  | reference name => exact matches_reference name
  | word start cs => exact matches_word start cs
  | number _ _ _ digits => exact matches_number digits
  | symbol found => exact matches_symbol found

theorem eq_takeWhile_of_length {test : Char → Bool} {text rest : List Char}
    (h : text.length = ((text ++ rest).takeWhile test).length) :
    text = (text ++ rest).takeWhile test :=
  (List.prefix_of_prefix_length_le (List.prefix_append text rest) (List.takeWhile_prefix test)
    (Nat.le_of_eq h)).eq_of_length h

/-- The scanner finds the longest text that a rule matches, and the token it gives. -/
theorem longest_of_tokenAt {cs : List Char} {t : Token} {n : Nat}
    (h : tokenAt cs = some (t, n)) : Longest cs (cs.take n) t := by
  obtain ⟨text, rest, rfl, rfl, hrule⟩ := (tokenAt_eq_some_iff.1 h).matches
  rw [List.take_left]
  refine ⟨List.prefix_append text rest, hrule, ?_, ?_⟩
  · intro rule hr other hother hb
    obtain ⟨t', n, ht, hn⟩ := tokenAt_of_mem hr hother hb
    rw [h] at ht
    cases ht
    exact hn
  · intro c hc hstart
    obtain ⟨text, rfl⟩ := List.head?_eq_some_iff.1 hc
    rw [mem_wordStart] at hstart
    have hpart := isWordPart_of_isWordStart c hstart
    rw [List.cons_append, tokenAt_of_isWordPart c _ hpart, if_pos hstart] at h
    obtain ⟨rfl, hlength⟩ := Prod.mk.inj (Option.some.inj h)
    have htext := eq_takeWhile_of_length (Nat.succ.inj hlength).symm
    rw [← htext, List.cons_append, List.takeWhile_cons_of_pos hpart, ← htext]
    exact ⟨rfl, ofWord_cases (c :: text)⟩

/-- Where the scanner finds no token, no rule matches. -/
theorem not_begins_of_tokenAt {cs text : List Char} {rule : Rule} (h : tokenAt cs = none)
    (hr : rule ∈ rules) (ht : text ∈ rule.language) : ¬text <+: cs := by
  intro hb
  obtain ⟨t, n, hsome, -⟩ := tokenAt_of_mem hr ht hb
  rw [h] at hsome
  cases hsome

end Expr

end Dialogue
