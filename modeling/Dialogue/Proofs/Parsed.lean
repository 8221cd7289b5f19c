import Dialogue.Proofs.Fitting
import Dialogue.Proofs.Leaves
import Dialogue.Proofs.Reading
import Dialogue.Statement.Block

/-!
# The statements of a body

What a body is read as has texts without line breaks and without the brackets that
end them, identifiers for names, and conditionals whose branches have conditions up
to the last one (`blockMeets_of_ofBody`). A reader is given tokens that fit one after
another, makes an item of them that meets these rules, and leaves tokens that fit
again; items that meet the rules make statements that do.
-/

namespace Dialogue

namespace Rules

/-- What the statements of a body are like. -/
def parsed : Rules where
  text := Text.isPhrase
  link cs := Text.isPhrase cs && !cs.contains '|' && !Text.hasDouble ']' cs
  label cs := Text.isPhrase cs && !cs.contains '|' && !Text.hasDouble ']' cs
  destination := isDestination
  shortcut cs := Text.isPhrase cs && Mode.base.textLength cs == cs.length
  command cs := Text.trim cs == cs && !cs.contains '\n' && !Text.hasDouble '>' cs &&
    !isDirective cs
  target := Expr.isIdentifier
  leaf := Expr.Token.isSpellable
  branches := areBranches

end Rules

theorem takeWhile_append_of_not {test : Char → Bool} (cs rest : List Char)
    (h : ∀ c ∈ rest, test c = false) : (cs ++ rest).takeWhile test = cs.takeWhile test := by
  induction cs with
  | nil =>
    cases rest with
    | nil => rfl
    | cons c rest => rw [List.nil_append, List.takeWhile_cons_of_neg (by simp [h c])]; rfl
  | cons c cs ih => rw [List.cons_append, List.takeWhile_cons, List.takeWhile_cons, ih]

theorem trimEnd_append_blanks_eq (cs : List Char) :
    ∃ blanks, cs = Text.trimEnd cs ++ blanks ∧ ∀ c ∈ blanks, Text.isBlank c = true := by
  refine ⟨(cs.reverse.takeWhile Text.isBlank).reverse, ?_, ?_⟩
  · have h := congrArg List.reverse (List.takeWhile_append_dropWhile (p := Text.isBlank) (l := cs.reverse))
    rw [List.reverse_append, List.reverse_reverse] at h
    exact h.symm
  · intro c hc
    exact List.all_eq_true.1 List.all_takeWhile c (List.mem_reverse.1 hc)

theorem isKeywordChar_of_isBlank (c : Char) (h : Text.isBlank c = true) :
    isKeywordChar c = false := by
  cases hk : isKeywordChar c with
  | false => rfl
  | true =>
    simp only [isKeywordChar, Bool.or_eq_true, beq_iff_eq] at hk
    rcases hk with hk | rfl
    · rw [Mode.isBlank_of_isAlphanum c hk] at h
      cases h
    · revert h
      decide

theorem isDirective_trim (cs : List Char) : isDirective (Text.trim cs) = isDirective cs := by
  have hstart : Text.trimStart (Text.trim cs) = Text.trim cs :=
    Text.trimStart_eq_self (Text.first_of_trim_eq (Text.trim_trim cs))
  obtain ⟨blanks, hb, hblank⟩ := trimEnd_append_blanks_eq (Text.trimStart cs)
  have hword : (leadingWord (Text.trim cs)).1 = (leadingWord cs).1 := by
    unfold leadingWord
    simp only
    rw [hstart, hb, takeWhile_append_of_not _ _ fun c hc => isKeywordChar_of_isBlank c (hblank c hc)]
    rfl
  rw [isDirective, hword]
  rfl

theorem meets_expressionAt {t : Token} {n : Nat} {e : Expr} (h : t.expressionAt n = .ok e) :
    e.meets .parsed = true :=
  Expr.spellable_parseAt h

def ClauseKind.meets (r : Rules) : ClauseKind → Bool
  | .elseIf condition => condition.meets r
  | .otherwise => true
  | .endIf => true

def Directive.meets (r : Rules) : Directive → Bool
  | .statement s => s.meets r
  | .ifStart condition => condition.meets r
  | .clause kind => kind.meets r

theorem meets_elseClause {t : Token} {n : Nat} {kind : ClauseKind}
    (h : elseClause t n = .ok kind) : kind.meets .parsed = true := by
  unfold elseClause at h
  simp only at h
  split at h
  · cases h
    rfl
  · split at h
    · obtain ⟨e, he, rfl⟩ := exists_of_map_eq_ok h
      exact meets_expressionAt he
    · cases h

theorem meets_command {t : Token} (line : Nat) (hk : t.kind = .text) (hf : t.Fits .command)
    (hd : isDirective t.text = false) :
    (Statement.command line (String.ofList (Text.trim t.text))).meets .parsed = true := by
  have hu := Mode.unbroken_of_textLength .command (by decide) t.text (hf.length hk)
  have hdouble := Mode.hasDouble_of_unbroken (c := '>') (fun _ => rfl) t.text hu
  simp [Statement.meets, Rules.parsed, Text.trim_trim, Text.not_mem_trim '\n' (hf.newline hk),
    Text.hasDouble_trim hdouble, isDirective_trim, hd]

theorem meets_readDirective {t : Token} {line : Nat} {d : Directive} (hk : t.kind = .text)
    (hf : t.Fits .command) (h : readDirective line t = .ok d) : d.meets .parsed = true := by
  unfold readDirective at h
  simp only at h
  split at h
  · obtain ⟨a, ha, rfl⟩ := exists_of_map_eq_ok h
    obtain ⟨ht, hv⟩ := Expr.spellable_parseAssignmentAt ha
    exact Bool.and_eq_true_iff.2 ⟨ht, hv⟩
  · obtain ⟨e, he, rfl⟩ := exists_of_map_eq_ok h
    exact meets_expressionAt he
  · obtain ⟨e, he, rfl⟩ := exists_of_map_eq_ok h
    exact meets_expressionAt he
  · obtain ⟨kind, hc, rfl⟩ := exists_of_map_eq_ok h
    exact meets_elseClause hc
  · split at h
    · cases h
      rfl
    · cases h
  · rename_i hset hif helseif helse hendif
    cases h
    refine meets_command line hk hf ?_
    simp only [isDirective, directiveWords, List.contains_eq_mem, List.mem_cons, List.not_mem_nil,
      or_false, decide_eq_false_iff_not, not_or]
    exact ⟨hset, hif, helseif, helse, hendif⟩

namespace Prose

theorem unescape_sublist (cs : List Char) : List.Sublist (unescape cs) cs := by
  fun_induction unescape cs with
  | case1 c cs _ ih => exact (ih.cons_cons c).cons _
  | case2 c cs _ ih => exact ih.cons_cons _
  | case3 c cs _ ih => exact ih.cons_cons c
  | case4 => exact List.Sublist.refl _

theorem unescape_ne_nil {cs : List Char} (h : cs ≠ []) : unescape cs ≠ [] := by
  unfold unescape
  split
  · split <;> exact List.cons_ne_nil _ _
  · exact List.cons_ne_nil _ _
  · exact absurd rfl h

theorem getLast?_unescape (cs : List Char) : (unescape cs).getLast? = cs.getLast? := by
  have hcons : ∀ (c d : Char) (cs : List Char), (unescape (d :: cs)).getLast? = (d :: cs).getLast? →
      (c :: unescape (d :: cs)).getLast? = (c :: d :: cs).getLast? := by
    intro c d cs h
    obtain ⟨x, xs, hx⟩ := List.exists_cons_of_ne_nil (unescape_ne_nil (List.cons_ne_nil d cs))
    rw [hx] at h ⊢
    simpa using h
  fun_induction unescape cs with
  | case1 c cs _ ih =>
    cases cs with
    | nil => rfl
    | cons d cs => simpa using hcons c d cs ih
  | case2 c cs _ ih => exact hcons '\\' c cs ih
  | case3 c cs _ ih =>
    cases cs with
    | nil => rfl
    | cons d cs => exact hcons c d cs ih
  | case4 => rfl

theorem head?_unescape (cs : List Char) :
    (unescape cs).head? = cs.head? ∨ ∃ c, (unescape cs).head? = some c ∧ isEscapable c = true := by
  unfold unescape
  split
  · split
    · rename_i c cs hc
      exact Or.inr ⟨c, rfl, hc⟩
    · exact Or.inl rfl
  · exact Or.inl rfl
  · exact Or.inl rfl

theorem isBlank_of_isEscapable (c : Char) (h : isEscapable c = true) : Text.isBlank c = false := by
  simp only [isEscapable, Bool.or_eq_true, beq_iff_eq] at h
  rcases h with ((rfl | rfl) | rfl) | rfl <;> decide

theorem phrase_unescape {cs : List Char} (h : Text.Phrase cs) : Text.Phrase (unescape cs) where
  ne_nil := unescape_ne_nil h.ne_nil
  first := by
    intro c hc
    rcases head?_unescape cs with he | ⟨d, hd, hesc⟩
    · exact h.first c (by rw [← he]; exact hc)
    · rw [hd] at hc
      cases hc
      exact isBlank_of_isEscapable _ hesc
  last := by
    intro c hc
    rw [getLast?_unescape] at hc
    exact h.last c hc
  newline := fun hm => h.newline ((unescape_sublist cs).subset hm)

end Prose

def Item.meets (r : Rules) : Item → Bool
  | .statement s => s.meets r
  | .shortcut _ label condition => r.shortcut label.toList && conditionMeets r condition
  | .ifStart _ condition => condition.meets r
  | .clause c => c.kind.meets r
  | _ => true

theorem BodyEnd.of_expect {e : BodyEnd} {kind : TokenKind} {expected : Expectation}
    {tokens : List Token} {found : Token × List Token}
    (h : e.expect kind expected tokens = .ok found) :
    tokens = found.1 :: found.2 ∧ found.1.kind = kind := by
  unfold BodyEnd.expect at h
  split at h
  · cases h
  · rename_i t rest
    split at h
    · rename_i hk
      cases h
      exact ⟨rfl, hk⟩
    · cases h

theorem phrase_meets {t : Token} {mode : Mode} (hk : t.kind = .text) (hf : t.Fits mode)
    (hne : ¬Text.trim t.text = []) : Text.isPhrase (Text.trim t.text) = true :=
  (Text.phrase_iff_isPhrase _).1 (Text.phrase_trim hne (hf.newline hk))

theorem label_meets {t : Token} (hk : t.kind = .text) (hf : t.Fits .option)
    (hne : ¬Text.trim t.text = []) : Rules.parsed.label (Text.trim t.text) = true := by
  have hu := Mode.unbroken_of_textLength .option (by decide) t.text (hf.length hk)
  have hdouble := Mode.hasDouble_of_unbroken (c := ']') (fun _ => rfl) t.text hu
  have hbar := Mode.not_mem_of_unbroken (c := '|') (fun _ => rfl) t.text hu
  simp [Rules.parsed, phrase_meets hk hf hne, Text.not_mem_trim '|' hbar,
    Text.hasDouble_trim hdouble]

theorem shortcut_meets {t : Token} (hk : t.kind = .text) (hf : t.Fits .base)
    (hne : ¬Text.trim t.text = []) : Rules.parsed.shortcut (Text.trim t.text) = true := by
  simp [Rules.parsed, phrase_meets hk hf hne, Mode.textLength_trim t.text (hf.length hk)]

/-! ### What readers take -/

/-- The tokens and the item of an option. -/
inductive OptionRead (start : Token) : List Token → Item → Nat → Prop
  | link {label close : Token} {rest : List Token} {k : Nat} (text : label.kind = .text)
      (ne_nil : ¬Text.trim label.text = []) (closing : close.kind = .optionEnd)
      (condition : trailingCondition rest = .ok (none, k)) :
      OptionRead start (label :: close :: rest)
        (.statement (.link start.position.line (String.ofList (Text.trim label.text)))) 2
  | option {label bar target close : Token} {rest : List Token} {found : Option Expr} {k : Nat}
      (text : label.kind = .text) (ne_nil : ¬Text.trim label.text = [])
      (separator : bar.kind = .optionSep) (destination : target.kind = .identifier)
      (closing : close.kind = .optionEnd) (condition : trailingCondition rest = .ok (found, k)) :
      OptionRead start (label :: bar :: target :: close :: rest)
        (.statement (.option start.position.line (String.ofList (Text.trim label.text))
          (String.ofList (Text.trim target.text)) found)) (4 + k)

theorem optionRead_of_readOption {e : BodyEnd} {start : Token} {tokens : List Token} {item : Item}
    {n : Nat} (h : readOption e start tokens = .ok (item, n)) : OptionRead start tokens item n := by
  unfold readOption at h
  obtain ⟨⟨label, rest⟩, hlabel, hread⟩ := exists_of_bind_eq_ok h
  obtain ⟨rfl, hk⟩ := BodyEnd.of_expect hlabel
  simp only at hread hk
  split at hread
  · cases hread
  · rename_i hne
    split at hread
    · rename_i hsep
      cases rest with
      | nil => cases hsep
      | cons bar rest =>
        have hbar : bar.kind = .optionSep := by simpa using hsep
        obtain ⟨⟨target, behind⟩, htarget, hread1⟩ := exists_of_bind_eq_ok hread
        obtain ⟨hrest, hkt⟩ := BodyEnd.of_expect htarget
        simp only [List.tail_cons] at hrest hread1 hkt
        obtain ⟨⟨close, last⟩, hclose, hread2⟩ := exists_of_bind_eq_ok hread1
        obtain ⟨hbehind, hkc⟩ := BodyEnd.of_expect hclose
        simp only at hbehind hread2 hkc
        obtain ⟨⟨found, k⟩, hcond, hread3⟩ := exists_of_bind_eq_ok hread2
        cases hread3
        subst hrest hbehind
        exact .option hk hne hbar hkt hkc hcond
    · obtain ⟨⟨close, last⟩, hclose, hread1⟩ := exists_of_bind_eq_ok hread
      obtain ⟨hrest, hkc⟩ := BodyEnd.of_expect hclose
      simp only at hrest hread1 hkc
      obtain ⟨⟨found, k⟩, hcond, hread2⟩ := exists_of_bind_eq_ok hread1
      subst hrest
      cases found with
      | some e => cases hread2
      | none =>
        cases hread2
        exact .link hk hne hkc hcond

/-- The item of a shortcut option, with or without a body below it. -/
def shortcutItem (marker label : Token) (found : Option Expr) (opens : Bool) : Item :=
  if opens then .shortcut marker.position.line (String.ofList (Text.trim label.text)) found
  else
    .statement (.shortcut marker.position.line (String.ofList (Text.trim label.text)) found [])

inductive ShortcutHead (marker : Token) : List Token → Item → Nat → Prop
  | read {label : Token} {rest : List Token} {found : Option Expr} {n m : Nat} {opens : Bool}
      (text : label.kind = .text) (ne_nil : ¬Text.trim label.text = [])
      (condition : trailingCondition rest = .ok (found, n))
      (line : endsLine (rest.drop n) = true) (breaks : lineBreakTokens (rest.drop n) = (m, opens)) :
      ShortcutHead marker (label :: rest) (shortcutItem marker label found opens) (1 + n + m)

theorem shortcutHead_of_readShortcut {e : BodyEnd} {marker : Token} {tokens : List Token}
    {item : Item} {n : Nat} (h : readShortcut e marker tokens = .ok (item, n)) :
    ShortcutHead marker tokens item n := by
  unfold readShortcut at h
  obtain ⟨⟨label, rest⟩, hlabel, hread⟩ := exists_of_bind_eq_ok h
  obtain ⟨htokens, hk⟩ := BodyEnd.of_expect hlabel
  simp only at hread hk htokens
  subst htokens
  obtain ⟨⟨found, k⟩, hcond, hread1⟩ := exists_of_bind_eq_ok hread
  simp only at hread1
  split at hread1
  · cases hread1
  · rename_i hne
    split at hread1
    · cases hread1
    · rename_i hline
      have hline : endsLine (rest.drop k) = true := by simpa using hline
      split at hread1
      · rename_i m hm
        cases hread1
        exact .read hk hne hcond hline hm
      · rename_i m hm
        cases hread1
        exact .read hk hne hcond hline hm

inductive CommandRead (start : Token) : List Token → Item → Nat → Prop
  | read {command close : Token} {rest : List Token} {d : Directive} (text : command.kind = .text)
      (closing : close.kind = .commandEnd)
      (directive : readDirective start.position.line command = .ok d) :
      CommandRead start (command :: close :: rest) (d.item start command) 2

theorem commandRead_of_readCommand {e : BodyEnd} {start : Token} {tokens : List Token}
    {item : Item} {n : Nat} (h : readCommand e start tokens = .ok (item, n)) :
    CommandRead start tokens item n := by
  unfold readCommand at h
  obtain ⟨⟨command, rest⟩, hcommand, hread⟩ := exists_of_bind_eq_ok h
  obtain ⟨htokens, hk⟩ := BodyEnd.of_expect hcommand
  simp only at hread hk htokens
  subst htokens
  obtain ⟨⟨close, last⟩, hclose, hread1⟩ := exists_of_bind_eq_ok hread
  obtain ⟨hrest, hkc⟩ := BodyEnd.of_expect hclose
  simp only at hrest hread1 hkc
  subst hrest
  obtain ⟨d, hd, hread2⟩ := exists_of_bind_eq_ok hread1
  cases d with
  | statement s =>
    cases hread2
    exact .read hk hkc hd
  | ifStart condition =>
    cases hread2
    exact .read hk hkc hd
  | clause kind =>
    cases hread2
    exact .read hk hkc hd

section

variable {e : BodyEnd} {t : Token} {rest : List Token} {item : Item} {n : Nat}

/-- What a token tells the reader, and what stands behind the token where it opens an item. -/
inductive ItemRead (t : Token) (rest : List Token) : Item → Nat → Prop
  | newline (kind : t.kind = .newline) : ItemRead t rest .space 0
  | indent (kind : t.kind = .indent) : ItemRead t rest .indent 0
  | dedent (kind : t.kind = .dedent) : ItemRead t rest .dedent 0
  | blank (kind : t.kind = .text) (blank : Text.trim t.text = []) : ItemRead t rest .space 0
  | text (kind : t.kind = .text) (ne_nil : ¬Text.trim t.text = []) :
      ItemRead t rest (.statement (.text t.position.line
        (String.ofList (Prose.unescape (Text.trim t.text))))) 0
  | option {item : Item} {n : Nat} (kind : t.kind = .optionStart)
      (read : OptionRead t rest item n) : ItemRead t rest item n
  | shortcut {item : Item} {n : Nat} (kind : t.kind = .shortcutMarker)
      (read : ShortcutHead t rest item n) : ItemRead t rest item n
  | command {item : Item} {n : Nat} (kind : t.kind = .commandStart)
      (read : CommandRead t rest item n) : ItemRead t rest item n

theorem itemRead_of_readItem (h : readItem e t rest = .ok (item, n)) : ItemRead t rest item n := by
  unfold readItem at h
  split at h
  · rename_i hk
    cases h
    exact .newline hk
  · rename_i hk
    cases h
    exact .indent hk
  · rename_i hk
    cases h
    exact .dedent hk
  · rename_i hk
    simp only at h
    split at h
    · rename_i hblank
      cases h
      exact .blank hk hblank
    · rename_i hblank
      cases h
      exact .text hk hblank
  · rename_i hk
    exact .option hk (optionRead_of_readOption h)
  · rename_i hk
    exact .shortcut hk (shortcutHead_of_readShortcut h)
  · rename_i hk
    exact .command hk (commandRead_of_readCommand h)
  · cases h

theorem optionRead_of_readItem (hk : t.kind = .optionStart)
    (h : readItem e t rest = .ok (item, n)) : OptionRead t rest item n := by
  rw [readItem, hk] at h
  exact optionRead_of_readOption h

theorem shortcutHead_of_readItem (hk : t.kind = .shortcutMarker)
    (h : readItem e t rest = .ok (item, n)) : ShortcutHead t rest item n := by
  rw [readItem, hk] at h
  exact shortcutHead_of_readShortcut h

theorem commandRead_of_readItem (hk : t.kind = .commandStart)
    (h : readItem e t rest = .ok (item, n)) : CommandRead t rest item n := by
  rw [readItem, hk] at h
  exact commandRead_of_readCommand h

end

/-- A reader has taken `n` tokens and leaves tokens that fit. -/
structure Reads (r : Rules) (item : Item) (rest : List Token) (n : Nat) : Prop where
  meets : item.meets r = true
  fitting : Fitting .base (rest.drop n)

theorem meets_trailingCondition {tokens : List Token} {condition : Option Expr} {n : Nat}
    (hf : Fitting .base tokens) (h : trailingCondition tokens = .ok (condition, n)) :
    conditionMeets .parsed condition = true ∧ Fitting .base (tokens.drop n) := by
  have hlead : ∀ k, (k = if (tokens.head?.map Token.isBlankText).getD false = true then 1 else 0) →
      Fitting .base (tokens.drop k) := by
    rintro k rfl
    split
    · rename_i hb
      cases tokens with
      | nil => exact hf
      | cons t rest =>
        have ht : t.kind = .text := by
          simp only [List.head?_cons, Option.map_some, Option.getD_some, Token.isBlankText,
            Bool.and_eq_true, beq_iff_eq] at hb
          exact hb.1
        have hrest := hf.2
        rw [ht] at hrest
        exact hrest
    · exact hf
  unfold trailingCondition at h
  simp only at h
  split at h
  · rename_i first command last rest he
    have hfirst := hlead _ rfl
    rw [he] at hfirst
    split at h
    · rename_i hk
      obtain ⟨e, hexpr, heq⟩ := exists_of_map_eq_ok h
      cases heq
      refine ⟨meets_expressionAt hexpr, ?_⟩
      have hdrop := congrArg (List.drop 3) he
      rw [List.drop_drop] at hdrop
      rw [hdrop]
      have hrest := hfirst.2.2.2
      rw [hk.1, hk.2.1, hk.2.2.1] at hrest
      exact hrest
    · cases h
      exact ⟨rfl, hf⟩
  · cases h
    exact ⟨rfl, hf⟩

theorem Fitting.tail {mode : Mode} {t : Token} {ts : List Token} {kind : TokenKind}
    (h : Fitting mode (t :: ts)) (hk : t.kind = kind) : Fitting (mode.after kind) ts := by
  rw [← hk]
  exact h.2

theorem OptionRead.reads {start : Token} {tokens : List Token} {item : Item} {n : Nat}
    (h : OptionRead start tokens item n) (hf : Fitting .option tokens) :
    Reads .parsed item tokens n := by
  cases h with
  | link text ne_nil closing condition =>
    refine ⟨?_, (hf.tail text).tail closing⟩
    simp only [Item.meets, Statement.meets, String.toList_ofList]
    exact label_meets text hf.1 ne_nil
  | option text ne_nil separator destination closing condition =>
    have hsep := hf.tail text
    have htarget := hsep.tail separator
    have hclose := htarget.tail destination
    obtain ⟨hc, hrest⟩ := meets_trailingCondition (hclose.tail closing) condition
    refine ⟨?_, by rw [Nat.add_comm]; exact hrest⟩
    simp only [Item.meets, Statement.meets, String.toList_ofList, Bool.and_eq_true]
    exact ⟨⟨label_meets text hf.1 ne_nil, htarget.1.destination destination⟩, hc⟩

theorem fitting_lineBreakTokens {tokens : List Token} (hf : Fitting .base tokens) :
    Fitting .base (tokens.drop (lineBreakTokens tokens).1) := by
  unfold lineBreakTokens
  split
  · split
    · rename_i hk
      have hnext := hf.tail hk
      split
      · rename_i hn
        exact hnext.tail hn
      · exact hnext
    · exact hf
  · split
    · rename_i hk
      exact hf.tail hk
    · exact hf
  · exact hf

theorem ShortcutHead.reads {marker : Token} {tokens : List Token} {item : Item} {n : Nat}
    (h : ShortcutHead marker tokens item n) (hf : Fitting .base tokens) :
    Reads .parsed item tokens n := by
  cases h with
  | @read label rest found k m opens text ne_nil condition line breaks =>
    obtain ⟨hc, hrest⟩ := meets_trailingCondition (hf.tail text) condition
    have hlabel := shortcut_meets text hf.1 ne_nil
    refine ⟨?_, ?_⟩
    · cases opens <;>
        simp [shortcutItem, Item.meets, Statement.meets, Statement.blockMeets, hlabel, hc]
    · have hdrop : (label :: rest).drop (1 + k + m) = (rest.drop k).drop m := by
        rw [Nat.add_assoc, Nat.add_comm, List.drop_succ_cons, List.drop_drop]
      have hbreaks := fitting_lineBreakTokens hrest
      rw [breaks] at hbreaks
      rw [hdrop]
      exact hbreaks

theorem CommandRead.reads {start : Token} {tokens : List Token} {item : Item} {n : Nat}
    (h : CommandRead start tokens item n) (hf : Fitting .command tokens) :
    Reads .parsed item tokens n := by
  cases h with
  | read text closing directive =>
    have hd := meets_readDirective text hf.1 directive
    refine ⟨?_, (hf.tail text).tail closing⟩
    rename_i d
    cases d <;> exact hd

/-- The item that a reader makes of tokens that fit meets the rules. -/
theorem reads_readItem {e : BodyEnd} {t : Token} {rest : List Token} {item : Item} {n : Nat}
    (hf : Fitting .base (t :: rest)) (h : readItem e t rest = .ok (item, n)) :
    Reads .parsed item rest n := by
  cases itemRead_of_readItem h with
  | newline kind | indent kind | dedent kind | blank kind => exact ⟨rfl, hf.tail kind⟩
  | text kind ne_nil =>
    refine ⟨?_, hf.tail kind⟩
    have hp := (Text.phrase_iff_isPhrase _).2 (phrase_meets kind hf.1 ne_nil)
    simp only [Item.meets, Statement.meets, String.toList_ofList]
    exact (Text.phrase_iff_isPhrase _).1 (Prose.phrase_unescape hp)
  | option kind read => exact read.reads (hf.tail kind)
  | shortcut kind read => exact read.reads (hf.tail kind)
  | command kind read => exact read.reads (hf.tail kind)

/-! ### Blocks -/

namespace Statement

theorem blockMeets_append (r : Rules) (a b : List Statement) :
    blockMeets r (a ++ b) = (blockMeets r a && blockMeets r b) := by
  induction a with
  | nil => rfl
  | cons s ss ih => rw [List.cons_append, blockMeets, blockMeets, ih, Bool.and_assoc]

theorem branchesMeet_append (r : Rules) (a b : List Branch) :
    branchesMeet r (a ++ b) = (branchesMeet r a && branchesMeet r b) := by
  induction a with
  | nil => rfl
  | cons branch bs ih =>
    cases branch
    simp only [List.cons_append, branchesMeet, ih, Bool.and_assoc]

end Statement

open Statement

def Enclosing.meets (r : Rules) : Enclosing → Bool
  | .shortcut _ label condition before =>
    r.shortcut label.toList && conditionMeets r condition && blockMeets r before
  | .conditional _ branches _ condition before =>
    r.branches (branches.map (fun b => b.condition.isSome) ++ [condition.isSome]) &&
      branchesMeet r branches && conditionMeets r condition && blockMeets r before

def Assembly.meets (r : Rules) (a : Assembly) : Bool :=
  blockMeets r a.block && a.around.all (Enclosing.meets r)

namespace Rules

theorem areBranches_concat (heads : List Bool) (next : Bool)
    (h : areBranches (heads ++ [true]) = true) : areBranches (heads ++ [true] ++ [next]) = true := by
  simp only [areBranches, Bool.and_eq_true, beq_iff_eq, List.dropLast_concat] at h ⊢
  refine ⟨?_, ?_⟩
  · rw [List.head?_append, h.1]
    rfl
  · rw [List.all_append, h.2]
    rfl

end Rules

namespace Assembly

section

variable {a b : Assembly} {t : Token}

theorem meets_push {r : Rules} {s : Statement} (ha : a.meets r = true) (hs : s.meets r = true) :
    (a.push s).meets r = true := by
  simp only [meets, push, blockMeets_append, blockMeets, Bool.and_eq_true, Bool.and_true] at ha ⊢
  exact ⟨⟨ha.1, hs⟩, ha.2⟩

theorem meets_dedent (ha : a.meets .parsed = true) (h : a.dedent t = .ok b) :
    b.meets .parsed = true := by
  unfold dedent at h
  split at h
  · cases h
    exact ha
  · cases h
    exact ha
  · rename_i levels line label condition before around hlevels haround
    cases h
    simp only [meets, haround, List.all_cons, Enclosing.meets, Bool.and_eq_true] at ha
    simp only [meets, blockMeets_append, blockMeets, Statement.meets, Bool.and_eq_true,
      Bool.and_true]
    exact ⟨⟨ha.2.1.2, ha.2.1.1, ha.1⟩, ha.2.2⟩
  · cases h

theorem meets_clause {c : Clause} (ha : a.meets .parsed = true)
    (hc : c.kind.meets .parsed = true) (h : a.clause c = .ok b) : b.meets .parsed = true := by
  unfold clause at h
  split at h
  · rename_i line branches branchLine condition before around haround
    simp only [meets, haround, List.all_cons, Enclosing.meets, Bool.and_eq_true] at ha
    obtain ⟨hblock, ⟨⟨⟨hheads, hbranches⟩, hcondition⟩, hbefore⟩, haround'⟩ := ha
    have hfinished : branchesMeet .parsed (branches ++ [.mk branchLine condition a.block]) = true := by
      simp only [branchesMeet_append, branchesMeet, hbranches, hcondition, hblock, Bool.and_true]
    simp only at h
    split at h
    · cases h
      simp only [meets, blockMeets_append, blockMeets, Statement.meets, Bool.and_eq_true,
        Bool.and_true, List.map_append]
      exact ⟨⟨hbefore, hheads, hfinished⟩, haround'⟩
    · cases h
    · rename_i e previous hkind
      cases h
      rw [hkind] at hc
      simp only [meets, blockMeets, List.all_cons, Enclosing.meets, Bool.and_eq_true, true_and,
        List.map_append]
      exact ⟨⟨⟨⟨Rules.areBranches_concat _ true hheads, hfinished⟩, hc⟩, hbefore⟩, haround'⟩
    · rename_i previous hkind
      cases h
      simp only [meets, blockMeets, List.all_cons, Enclosing.meets, Bool.and_eq_true, true_and,
        List.map_append]
      exact ⟨⟨⟨⟨Rules.areBranches_concat _ false hheads, hfinished⟩, rfl⟩, hbefore⟩, haround'⟩
  · cases h

theorem meets_add {item : Item} (ha : a.meets .parsed = true) (hi : item.meets .parsed = true)
    (h : a.add t item = .ok b) : b.meets .parsed = true := by
  cases item with
  | space =>
    cases h
    exact ha
  | indent =>
    cases h
    exact ha
  | dedent => exact meets_dedent ha h
  | statement s =>
    cases h
    exact meets_push ha hi
  | shortcut line label condition =>
    cases h
    simp only [meets, Item.meets, Bool.and_eq_true] at ha hi
    simp only [meets, nest, blockMeets, List.all_cons, Enclosing.meets, Bool.and_eq_true, true_and]
    exact ⟨⟨hi, ha.1⟩, ha.2⟩
  | ifStart line condition =>
    cases h
    simp only [meets, Item.meets, Bool.and_eq_true] at ha hi
    simp only [meets, nest, blockMeets, List.all_cons, Enclosing.meets, Bool.and_eq_true, true_and]
    exact ⟨⟨⟨⟨rfl, rfl⟩, hi⟩, ha.1⟩, ha.2⟩
  | clause c => exact meets_clause ha hi h

end

theorem meets_finish {e : SyntaxError} : ∀ (block : List Statement) (around : List Enclosing)
    (ss : List Statement), blockMeets .parsed block = true →
    around.all (Enclosing.meets .parsed) = true → finish e block around = .ok ss →
    blockMeets .parsed ss = true
  | block, [], ss, hblock, _, h => by
    cases h
    exact hblock
  | block, .shortcut line label condition before :: around, ss, hblock, haround, h => by
    simp only [List.all_cons, Enclosing.meets, Bool.and_eq_true] at haround
    refine meets_finish _ around ss ?_ haround.2 h
    simp only [blockMeets_append, blockMeets, Statement.meets, Bool.and_eq_true, Bool.and_true]
    exact ⟨haround.1.2, haround.1.1, hblock⟩
  | _, .conditional .. :: _, _, _, _, h => by cases h

theorem meets_read (e : BodyEnd) (a : Assembly) (tokens : List Token) (ss : List Statement)
    (ha : a.meets .parsed = true) (hf : Fitting .base tokens) (h : a.read e tokens = .ok ss) :
    blockMeets .parsed ss = true := by
  have hparts : ∀ b : Assembly, b.meets .parsed = true →
      blockMeets .parsed b.block = true ∧ b.around.all (Enclosing.meets .parsed) = true :=
    fun b hb => by simpa only [meets, Bool.and_eq_true] using hb
  fun_induction read e a tokens with
  | case1 a => exact meets_finish _ _ ss (hparts a ha).1 (hparts a ha).2 h
  | case2 a t rest _ => exact meets_finish _ _ ss (hparts a ha).1 (hparts a ha).2 h
  | case3 => cases h
  | case4 => cases h
  | case5 a t rest _ item n hitem b hadd ih =>
    have hr := reads_readItem hf hitem
    exact ih (meets_add ha hr.meets hadd) hr.fitting h

end Assembly

/-- What a body is read as meets the rules for statements of a body. -/
theorem Statement.blockMeets_of_ofBody {body : List Char} {ss : List Statement}
    (h : ofBody body = .ok ss) : blockMeets .parsed ss = true := by
  unfold ofBody at h
  split at h
  · cases h
  · rename_i tokens ht
    split at h
    · cases h
    · rename_i found hfound
      cases h
      exact Assembly.meets_read _ {} tokens ss rfl
        (Cursor.fitting_tokens? _ (Cursor.owesLevels_ofBody body) tokens ht) hfound

end Dialogue
