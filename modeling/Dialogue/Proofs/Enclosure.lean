import Dialogue.Proofs.Grammar
import Dialogue.Proofs.Patterns
import Dialogue.Proofs.Relocation

/-!
# Sources inside a longer text

A source that is scanned on its own is scanned to the same tokens where a longer text
ends with it or goes on with a closing parenthesis (`spells_of_scan`): no token takes
that character in, and none looks further. So the source of an expression can stand
between parentheses as an operand of another one. It never ends with a closing angle
bracket, since its last token ends an operand, and so it can stand inside a command
(`sealed_of_parseAt`).
-/

namespace Dialogue

namespace Expr

/-- What may stand behind a source: nothing, or a closing parenthesis. -/
def Closes (rest : List Char) : Prop := ∀ c ∈ rest.head?, c = ')'

theorem closes_nil : Closes [] := nofun

theorem closes_cons (rest : List Char) : Closes (')' :: rest) := by
  intro c hc
  cases hc
  rfl

section

variable {cs rest : List Char}

theorem Closes.stops (hr : Closes rest) {test : Char → Bool} (ht : test ')' = false) :
    ∀ c ∈ rest.head?, test c = false := by
  intro c hc
  rw [hr c hc]
  exact ht

theorem stringBody_append (h : (stringBody cs).closed = true) (rest : List Char) :
    stringBody (cs ++ rest) = stringBody cs := by
  obtain ⟨inside, hinside, behind, rfl⟩ := exists_of_closed h
  rw [List.append_assoc, List.cons_append, stringBody_of_mem hinside, stringBody_of_mem hinside]

theorem variableName_append (hr : Closes rest) (h : variableName cs ≠ []) :
    variableName (cs ++ rest) = variableName cs := by
  cases cs with
  | nil => exact absurd rfl h
  | cons c cs =>
    rw [List.cons_append, variableName, variableName,
      takeWhile_append_of_stops cs (hr.stops (by decide))]

theorem fractionGroup_append (hr : Closes rest) (cs : List Char) :
    fractionGroup (cs ++ rest) = fractionGroup cs := by
  cases cs with
  | nil =>
    cases rest with
    | nil => rfl
    | cons c rest =>
      obtain rfl : c = ')' := hr c rfl
      rfl
  | cons c cs =>
    by_cases hc : c = '.'
    · rw [hc]
      exact takeWhile_append_of_stops cs (hr.stops (by decide))
    · simp [fractionGroup, hc]

theorem numberGroups_append (hr : Closes rest) (cs : List Char) :
    numberGroups (cs ++ rest) = numberGroups cs := by
  rw [numberGroups, numberGroups, takeWhile_append_of_stops cs (hr.stops (by decide)),
    dropWhile_append_of_stops cs (hr.stops (by decide)), fractionGroup_append hr]

theorem symbolAt_append (hr : Closes rest) {s : Symbol} (h : symbolAt cs = some s) :
    symbolAt (cs ++ rest) = some s := by
  obtain ⟨behind, rfl⟩ := chars_of_symbolAt h
  rw [List.append_assoc]
  cases behind with
  | nil =>
    cases rest with
    | nil => exact h
    | cons c rest =>
      obtain rfl : c = ')' := hr c rfl
      cases s <;> rfl
  | cons c behind =>
    by_cases hc : c = '='
    · rw [hc] at h ⊢
      cases s <;> exact h
    · cases s <;> simp [Symbol.chars, symbolAt, hc]

theorem Found.append {t : Token} {n : Nat} (h : Found cs t n) (hr : Closes rest) :
    Found (cs ++ rest) t n := by
  cases h with
  | string closed =>
    have hbody := stringBody_append closed rest
    rw [← hbody] at closed ⊢
    exact .string closed
  | reference name =>
    have hname := variableName_append hr name
    rw [← hname] at name ⊢
    exact .reference name
  | word start cs =>
    rw [← takeWhile_append_of_stops cs (hr.stops (by decide))]
    exact .word start (cs ++ rest)
  | @number c cs start quote sigil digits =>
    have hgroups := numberGroups_append hr (c :: cs)
    have htoken : Rule.numberOf (c :: cs) = Rule.numberOf (c :: cs ++ rest) := by
      rw [Rule.numberOf, Rule.numberOf, hgroups]
    rw [htoken, ← hgroups]
    refine @Found.number c (cs ++ rest) start quote sigil ?_
    rwa [← List.cons_append, hgroups]
  | symbol found => exact .symbol (symbolAt_append hr found)

end

/-- A source is scanned to the same tokens where it stands in a longer text. -/
theorem spells_of_scanFrom (offset : Nat) (cs : List Char) (lexemes : List Lexeme)
    (h : scanFrom offset cs = .ok lexemes) {rest : List Char} (hr : Closes rest) :
    Spells cs (lexemes.map Lexeme.token) rest := by
  fun_induction scanFrom offset cs generalizing lexemes with
  | case1 =>
    cases h
    exact spells_nil rest
  | case2 offset c cs hs ih => exact (spells_skipped c _ hs).append (ih lexemes h)
  | case3 => cases h
  | case4 offset c cs hs t n found stop more hmore ih =>
    cases h
    have hfound := tokenAt_eq_some_iff.1 found
    obtain ⟨text, behind, he, rfl, -⟩ := hfound.matches
    have htext : text ≠ [] := by
      rintro rfl
      exact absurd (tokenAt_length_pos _ _ _ found) (by simp)
    obtain ⟨d, text, rfl⟩ := List.exists_cons_of_ne_nil htext
    rw [List.cons_append, List.cons.injEq] at he
    obtain ⟨rfl, rfl⟩ := he
    have hfirst : Spells (c :: text) [t] (behind ++ rest) := by
      refine spells_token c text _ t (by simpa using hs) ?_
      rw [← List.append_assoc, tokenAt_eq_some_iff]
      exact hfound.append hr
    have hlater : Spells behind (more.map Lexeme.token) rest := by
      have hdrop := ih more hmore
      rwa [← List.cons_append, List.drop_left] at hdrop
    exact hfirst.append hlater
  | case5 => cases h

theorem not_mem_digits {text : List Char} (h : text ∈ digits) : '>' ∉ text :=
  fun hc => absurd (List.all_eq_true.1 (mem_digits.1 h).2 _ hc) (by decide)

theorem not_mem_word {text : List Char} (h : text ∈ word) : '>' ∉ text := by
  intro hc
  obtain ⟨c, hc', rest, hrest, rfl⟩ := mem_oneOf_mul.1 h
  rcases List.mem_cons.1 hc with rfl | hc
  · exact absurd ((mem_wordStart _).1 hc') (by decide)
  · exact absurd ((mem_wordPart _).1 (mem_kstar_oneOf.1 hrest _ hc)) (by decide)

theorem token_of_getLast {rule : Rule} {text : List Char} (hr : rule ∈ rules)
    (h : text ∈ rule.language) (hl : text.getLast? = some '>') :
    rule.token text = .symbol .greater := by
  have hmem := List.mem_of_getLast? hl
  simp only [rules, List.mem_append, List.mem_map, List.mem_cons, List.not_mem_nil, or_false] at hr
  obtain (⟨s, -, rfl⟩ | ⟨k, hk, rfl⟩) | rfl | rfl | rfl | rfl | rfl := hr
  · obtain rfl : text = s.chars := h
    cases s <;> first | rfl | exact absurd hl (by decide)
  · obtain rfl : text = k.1 := h
    have hwords : ∀ k ∈ Token.keywords, '>' ∉ k.1 := by decide
    exact absurd hmem (hwords k hk)
  · obtain ⟨whole, hwhole, rfl | ⟨fraction, hfraction, rfl⟩⟩ := mem_number.1 h
    · exact absurd hmem (not_mem_digits hwhole)
    · rcases List.mem_append.1 hmem with hw | hf
      · exact absurd hw (not_mem_digits hwhole)
      · rcases List.mem_cons.1 hf with hp | hf
        · cases hp
        · exact absurd hf (not_mem_digits hfraction)
  · obtain ⟨fraction, hfraction, rfl⟩ := mem_char_mul.1 h
    rcases List.mem_cons.1 hmem with hp | hf
    · cases hp
    · exact absurd hf (not_mem_digits hfraction)
  · obtain ⟨inside, -, rfl⟩ := mem_string.1 h
    rw [← List.cons_append, List.getLast?_concat] at hl
    cases hl
  · obtain ⟨name, hname, rfl⟩ := mem_char_mul.1 h
    rcases List.mem_cons.1 hmem with hp | hn
    · cases hp
    · exact absurd hn (not_mem_word hname)
  · exact absurd hmem (not_mem_word h)

theorem getLast?_of_scanFrom (offset : Nat) (cs : List Char) (lexemes : List Lexeme)
    (h : scanFrom offset cs = .ok lexemes) (hl : cs.getLast? = some '>') :
    (lexemes.map Lexeme.token).getLast? = some (.symbol .greater) := by
  fun_induction scanFrom offset cs generalizing lexemes with
  | case1 => cases hl
  | case2 offset c cs hs ih =>
    refine ih lexemes h ?_
    cases cs with
    | nil =>
      obtain rfl : c = '>' := by simpa using hl
      exact absurd hs (by decide)
    | cons d cs => rwa [List.getLast?_cons_cons] at hl
  | case3 => cases h
  | case4 offset c cs hs t n found stop more hmore ih =>
    cases h
    obtain ⟨text, behind, he, rfl, rule, hr, ht, rfl⟩ := (tokenAt_eq_some_iff.1 found).matches
    rw [he, List.drop_left] at hmore ih
    rw [List.map_cons]
    cases behind with
    | nil =>
      rw [scanFrom] at hmore
      cases hmore
      rw [he, List.append_nil] at hl
      simp [token_of_getLast hr ht hl]
    | cons d behind =>
      rw [he, List.getLast?_append_of_ne_nil _ (List.cons_ne_nil _ _)] at hl
      have hlater := ih more hmore hl
      have hne : more.map Lexeme.token ≠ [] := fun hnil => by simp [hnil] at hlater
      rw [← List.singleton_append, List.getLast?_append_of_ne_nil _ hne, hlater]
  | case5 => cases h

/-- The last token of an expression ends an operand. -/
theorem Derives.getLast? {line : Nat} : ∀ {level : Nat} {ts : List Token} {e : Expr},
    Derives line level ts e → ∃ t, ts.getLast? = some t ∧ t ≠ .symbol .greater
  | _, _, _, .unary _ operand => by
    obtain ⟨t, hlast, ht⟩ := operand.getLast?
    exact ⟨t, by rw [List.getLast?_cons, hlast]; rfl, ht⟩
  | _, _, _, .binary _ _ second => by
    obtain ⟨t, hlast, ht⟩ := second.getLast?
    refine ⟨t, ?_, ht⟩
    rw [List.getLast?_append_of_ne_nil _ (List.cons_ne_nil _ _), List.getLast?_cons, hlast]
    rfl
  | _, _, _, .tighter inner => inner.getLast?
  | _, _, _, .literal _ => ⟨_, rfl, nofun⟩
  | _, _, _, .var _ => ⟨_, rfl, nofun⟩
  | _, _, _, .callEmpty _ => ⟨.symbol .closeParen, rfl, by decide⟩
  | _, _, _, .call _ _ =>
    ⟨_, by rw [← List.cons_append, ← List.cons_append, List.getLast?_concat], by decide⟩
  | _, _, _, .group _ => ⟨_, by rw [← List.cons_append, List.getLast?_concat], by decide⟩

theorem Derives.loosened {line level : Nat} {ts : List Token} {e : Expr}
    (h : Derives line level ts e) (looser : Nat) (hl : looser ≤ level) :
    Derives line looser ts e := by
  induction hl with
  | refl => exact h
  | step _ ih => exact ih (.tighter h)

/-! ### Sources of expressions -/

/-- The source of an expression and the tokens that it is scanned to; the line is for the reader
to choose. -/
structure Spelled (source : List Char) (ts : List Token) (e : Expr) : Prop where
  spells : ∀ {rest : List Char}, Closes rest → Spells source ts rest
  derives : ∀ line, Derives line 1 ts (e.atLine line)
  ne_nil : source ≠ []
  last : source.getLast? ≠ some '>'

theorem spelled_of_parseAt {origin : Position} {source : List Char} {e : Expr}
    (h : parseAt origin source = .ok e) : ∃ ts, Spelled source ts e := by
  obtain ⟨lexemes, hscan, hread⟩ := readSource_eq_ok h
  have hderives : ∀ line, Derives line 1 (lexemes.map Lexeme.token) (e.atLine line) := by
    intro line
    rw [← mapLines_const]
    exact @derives_of_ofLexemes ⟨line, 0⟩ lexemes _ (readOperand_mapLines rfl [] lexemes e hread)
  obtain ⟨t, hlast, ht⟩ := (hderives 0).getLast?
  refine ⟨lexemes.map Lexeme.token, fun hr => spells_of_scanFrom 0 source lexemes hscan hr,
    hderives, ?_, ?_⟩
  · rintro rfl
    rw [scan, scanFrom] at hscan
    cases hscan
    cases hlast
  · intro hl
    rw [getLast?_of_scanFrom 0 source lexemes hscan hl] at hlast
    exact ht (Option.some.inj hlast).symm

theorem parseAssignmentAt_of_derives (target : String) (op : AssignOp) {ts : List Token} {e : Expr}
    (origin : Position) (text : List Char)
    (h : Spells text (.var target :: .symbol op.token :: ts) [])
    (hd : Derives origin.line 1 ts e) :
    parseAssignmentAt origin text = .ok ⟨target, op, e⟩ :=
  parseAssignmentAt_of_value target op origin text h fun source lexemes hline hl => by
    rw [← hline, ← hl] at hd
    exact ofLexemes_of_derives hd

end Expr

end Dialogue
