import Dialogue.Proofs.Garbling
import Dialogue.Proofs.Heads
import Dialogue.Proofs.Lines

/-!
# Lines that are read as something else

A line whose statement cannot be written is read with another head, or not at all.
The lexer ends a command at the first bracket it meets and an option at its own, so
the first tokens of such a line are known, whatever follows it; the item they are
read as shows the difference.
-/

namespace Dialogue

open Statement Place

def Directive.heads : Directive → List Head
  | .statement s => s.heads
  | .ifStart condition => [.branch (erasedCondition (some condition))]
  | .clause kind => kind.heads

theorem Directive.heads_item (d : Directive) (start command : Token) :
    (d.item start command).heads = d.heads := by
  cases d <;> rfl

theorem ShortcutHead.heads {marker label : Token} {rest : List Token} {item : Item} {n : Nat}
    (h : ShortcutHead marker (label :: rest) item n) :
    ∃ found k, trailingCondition rest = .ok (found, k) ∧
      item.heads = [.shortcut (String.ofList (Text.trim label.text)) (erasedCondition found)] := by
  cases h with
  | @read _ _ _ _ _ opens _ _ condition =>
    refine ⟨_, _, condition, ?_⟩
    cases opens <;> rfl

namespace Cursor

section

variable {c : Cursor} {a : Assembly} {lineStart : Bool} {levels : List Nat} {rest : List Char}
  {head : Head}

theorem Inside.strays_command {text : List Char}
    (h : Inside c .base lineStart levels ('<' :: '<' :: text ++ '>' :: '>' :: rest))
    (hs : Sealed text)
    (hd : ∀ line second d, second.text = text → readDirective line second = .ok d →
      ∃ other others, d.heads = other :: others ∧ other ≠ head) :
    Strays ⟨c, a⟩ (a.heads ++ [head]) := by
  obtain ⟨first, second, third, d, hw, hk1, hk2, ht, hk3, _⟩ := h.command hs
  refine strays_of_item hw fun e rest item n hitem => ?_
  have hread : CommandRead first (second :: third :: rest) item n :=
    commandRead_of_readItem hk1 hitem
  cases hread with
  | read text closing directive =>
    rw [Directive.heads_item]
    exact hd _ second _ ht directive

theorem Inside.strays_empty_command
    (h : Inside c .base lineStart levels ('<' :: '<' :: '>' :: '>' :: rest)) :
    Strays ⟨c, a⟩ (a.heads ++ [head]) := by
  have hopen : Inside c .base lineStart levels (['<', '<'] ++ ('>' :: '>' :: rest)) := h
  obtain ⟨first, c1, hw1, hk1, h1⟩ := hopen.delimiter .commandStart rfl rfl rfl (by decide)
  have hclose : Inside c1 .command false levels (['>', '>'] ++ rest) := h1
  obtain ⟨second, c2, hw2, hk2, _⟩ := hclose.delimiter .commandEnd rfl rfl rfl (by decide)
  refine strays_of_item (hw1.trans hw2) fun e rest item n hitem => ?_
  have hread : CommandRead first (second :: rest) item n := commandRead_of_readItem hk1 hitem
  cases hread with
  | read text closing directive =>
    rw [hk2] at text
    cases text

theorem Inside.strays_plain_command {content : List Char}
    (h : Inside c .base lineStart levels ('<' :: '<' :: content ++ '>' :: '>' :: rest))
    (hm : Rules.parsed.command content = true)
    (hb : content = [] ∨ content.getLast? = some '>') :
    Strays ⟨c, a⟩ (a.heads ++ [.command (String.ofList content)]) := by
  rcases hb with rfl | hl
  · exact h.strays_empty_command
  -- The bracket takes the last character along and leaves one of its own behind.
  obtain ⟨text, rfl⟩ := List.getLast?_eq_some_iff.1 hl
  simp only [Rules.parsed, Bool.and_eq_true, beq_iff_eq, Bool.not_eq_true', List.contains_eq_mem,
    decide_eq_false_iff_not] at hm
  obtain ⟨⟨⟨htrim, hn⟩, hd⟩, hdirective⟩ := hm
  have hcut : Inside c .base lineStart levels
      ('<' :: '<' :: text ++ '>' :: '>' :: ('>' :: rest)) := by
    simpa using h
  by_cases hne : text = []
  · subst hne
    exact hcut.strays_empty_command
  · have hs : Sealed text := by
      refine ⟨hne, fun hm => hn (List.mem_append_left _ hm), (Text.hasDouble_of_append hd).1, ?_⟩
      exact Expr.getLast?_ne_of_hasDouble hd
    have hfirst := Text.first_of_trim_eq htrim
    have hstart : Text.trimStart text = text := by
      refine Text.trimStart_eq_self fun d hd => hfirst d ?_
      rw [List.head?_append, hd]
      rfl
    have hword : (leadingWord text).1 = (leadingWord (text ++ ['>'])).1 := by
      unfold leadingWord
      simp only
      rw [hstart, Text.trimStart_eq_self hfirst, takeWhile_append_of_not]
      intro d hd
      rw [List.mem_singleton.1 hd]
      decide
    have hplain : isDirective text = false := by
      rw [isDirective, hword]
      exact hdirective
    refine hcut.strays_command hs fun line second d ht hread => ?_
    rw [readDirective_command line second (by rw [ht]; exact hplain), ht] at hread
    cases hread
    refine ⟨_, [], rfl, fun he => ?_⟩
    have hlen := congrArg List.length (String.ofList_injective (Head.command.inj he))
    have hle := (Text.trim_isInfix text).length_le
    rw [List.length_append, List.length_singleton] at hlen
    omega

/-! ### Misread expressions -/

section

variable {e : Expr} (hs : e.spellable = true) (hb : e.finite = false ∨ e.unbroken = false)

include hs hb

theorem Inside.exists_misread {word : List Char}
    (h : Inside c .base lineStart levels ('<' :: '<' :: (word ++ e.chars) ++ '>' :: '>' :: rest))
    (hw : Sealed word) :
    ∃ text behind, Inside c .base lineStart levels
        ('<' :: '<' :: (word ++ text) ++ '>' :: '>' :: behind) ∧
      Sealed (word ++ text) ∧ e.Misread text := by
  obtain ⟨text, behind, heq, htidy, hmis⟩ := Expr.exists_misread e hs hb rest
  refine ⟨text, behind, ?_, hw.append htidy, hmis⟩
  have happend : '<' :: '<' :: (word ++ e.chars) ++ '>' :: '>' :: rest =
      '<' :: '<' :: (word ++ text) ++ '>' :: '>' :: behind := by
    simp only [List.cons_append, List.append_assoc, heq]
  rw [← happend]
  exact h

theorem Inside.strays_branch {word : List Char} {n : Nat} {make : Expr → Directive}
    (h : Inside c .base lineStart levels ('<' :: '<' :: (word ++ e.chars) ++ '>' :: '>' :: rest))
    (hw : Sealed word) (hdrop : ∀ text, (word ++ text).drop n = ' ' :: text)
    (hread : ∀ line second text, second.text = word ++ text →
      readDirective line second = (second.expressionAt n).map make)
    (hmake : ∀ e', (make e').heads = [.branch (erasedCondition (some e'))]) :
    Strays ⟨c, a⟩ (a.heads ++ [.branch (erasedCondition (some e))]) := by
  obtain ⟨text, behind, hi, hsealed, hmis⟩ := h.exists_misread hs hb hw
  refine hi.strays_command hsealed fun line second d ht hd => ?_
  rw [hread line second text ht] at hd
  obtain ⟨e', he', rfl⟩ := exists_of_map_eq_ok hd
  rw [Token.expressionAt, ht, hdrop] at he'
  refine ⟨_, [], hmake e', fun heq => hmis.parseAt he' ?_⟩
  exact Option.some.inj (Head.branch.inj heq)

theorem Inside.strays_if
    (h : Inside c .base lineStart levels (branchHead true (some e) ++ rest)) :
    Strays ⟨c, a⟩ (a.heads ++ [.branch (erasedCondition (some e))]) := by
  rw [branchHead_if] at h
  have hw : Sealed "if ".toList :=
    (tidy_of_not_mem _ (by decide) (by decide) (by decide)).toSealed
  exact h.strays_branch hs hb hw (fun _ => rfl)
    (fun line second text ht => readDirective_ifWord line second text ht) fun _ => rfl

theorem Inside.strays_elseif
    (h : Inside c .base lineStart levels (branchHead false (some e) ++ rest)) :
    Strays ⟨c, a⟩ (a.heads ++ [.branch (erasedCondition (some e))]) := by
  rw [branchHead_elseif] at h
  have hw : Sealed "elseif ".toList :=
    (tidy_of_not_mem _ (by decide) (by decide) (by decide)).toSealed
  exact h.strays_branch hs hb hw (fun _ => rfl)
    (fun line second text ht => readDirective_elseifWord line second text ht) fun _ => rfl

theorem Inside.strays_assignment {target : String} {op : AssignOp}
    (h : Inside c .base lineStart levels ('<' :: '<' ::
      ("set".toList ++ (assignmentLead target op ++ e.chars)) ++ '>' :: '>' :: rest))
    (ht : Expr.isIdentifier target.toList = true) :
    Strays ⟨c, a⟩ (a.heads ++ [.assignment target op (e.atLine 0)]) := by
  have hset : Sealed ("set".toList ++ assignmentLead target op) :=
    (tidy_of_not_mem "set".toList (by decide) (by decide) (by decide)).toSealed.append
      (tidy_assignmentLead target op ht)
  obtain ⟨text, behind, hi, hsealed, hmis⟩ := Inside.exists_misread hs hb
    (by simpa only [List.append_assoc] using h) hset
  refine hi.strays_command hsealed fun line second d htext hread => ?_
  rw [List.append_assoc] at htext
  rw [readDirective_setWord line second _ htext] at hread
  obtain ⟨found, hfound, rfl⟩ := exists_of_map_eq_ok hread
  refine ⟨_, [], rfl, fun heq => ?_⟩
  obtain ⟨htarget, _, hvalue⟩ := Head.assignment.inj heq
  obtain ⟨lexemes, hscan, hl⟩ := Expr.leaves_parseAssignmentAt hfound
  rw [htarget, Expr.leaves_atLine_eq hvalue] at hl
  exact hmis (assignmentLead target op) _ lexemes
    (fun cs => spells_assignmentLead target op cs ht) hscan hl.symm

end

theorem of_trailingCondition {tokens : List Token} {first second third : Token}
    {rest : List Token} {found : Option Expr} {n : Nat} {text : List Char}
    (hd : tokens.drop (if (tokens.head?.map Token.isBlankText).getD false then 1 else 0) =
      first :: second :: third :: rest)
    (ht : second.text = "if ".toList ++ text) (h : trailingCondition tokens = .ok (found, n)) :
    found = none ∨ ∃ e, found = some e ∧ second.expressionAt 2 = .ok e := by
  have hw : leadingWord second.text = ("if".toList, 2) := by
    rw [ht]
    exact leadingWord_append 'i' ['f'] (' ' :: text) (by decide) (by decide) (by simp; decide)
  unfold trailingCondition at h
  simp only at h
  rw [hd] at h
  simp only [hw] at h
  split at h
  · obtain ⟨e, he, heq⟩ := exists_of_map_eq_ok h
    cases heq
    exact Or.inr ⟨e, rfl, he⟩
  · cases h
    exact Or.inl rfl

theorem erasedCondition_ne_of_misread {e : Expr} {text : List Char} {second : Token}
    {found : Option Expr} (hm : e.Misread text) (ht : second.text = "if ".toList ++ text)
    (h : found = none ∨ ∃ e', found = some e' ∧ second.expressionAt 2 = .ok e') :
    erasedCondition found ≠ erasedCondition (some e) := by
  rcases h with rfl | ⟨e', rfl, he'⟩
  · nofun
  · rw [Token.expressionAt, ht] at he'
    intro heq
    exact hm.parseAt he' (Option.some.inj heq)

section

variable {e : Expr} (hs : e.spellable = true) (hb : e.finite = false ∨ e.unbroken = false)

include hs hb

theorem Inside.misread_condition
    (h : Inside c .base lineStart levels
      ('<' :: '<' :: ("if ".toList ++ e.chars) ++ '>' :: '>' :: rest)) :
    ∃ first second third d text, Walks c [first, second, third] d ∧
      first.kind = .commandStart ∧ second.text = "if ".toList ++ text ∧ e.Misread text := by
  obtain ⟨text, behind, hi, hsealed, hmis⟩ := h.exists_misread hs hb
    (tidy_of_not_mem "if ".toList (by decide) (by decide) (by decide)).toSealed
  obtain ⟨first, second, third, d, hw, hk, _, ht, _, _⟩ := hi.command hsealed
  exact ⟨first, second, third, d, text, hw, hk, ht, hmis⟩

theorem Inside.strays_option {label target : List Char}
    (h : Inside c .base lineStart levels ('[' :: '[' :: label ++ '|' :: target ++
      ']' :: ']' :: (conditionChars (some e) ++ rest)))
    (ho : OptionText label) (hne : target ≠ [])
    (ht : target.all Mode.isDestinationChar = true) (labelText destination : String) :
    Strays ⟨c, a⟩ (a.heads ++ [.option labelText destination (erasedCondition (some e))]) := by
  obtain ⟨first, second, third, fourth, fifth, d, hw, hk1, hk2, _, hk3, _, _, hk5, hi⟩ :=
    h.option ho hne ht
  rw [conditionChars_some] at hi
  obtain ⟨blank, d1, hw1, hblank, hi1⟩ := hi.blank
  obtain ⟨opening, command, closing, d2, text, hw2, hk, htext, hmis⟩ :=
    hi1.misread_condition hs hb
  refine strays_of_item (hw.trans (hw1.trans hw2)) fun e rest item n hitem => ?_
  have hread : OptionRead first (second :: third :: fourth :: fifth :: blank :: opening ::
      command :: closing :: rest) item n := optionRead_of_readItem hk1 hitem
  cases hread with
  | link _ _ close _ =>
    rw [hk3] at close
    cases close
  | option _ _ _ _ _ condition =>
    have hdrop : (blank :: opening :: command :: closing :: rest).drop
        (if ((blank :: opening :: command :: closing :: rest).head?.map
          Token.isBlankText).getD false then 1 else 0) =
        opening :: command :: closing :: rest := by
      simp [hblank]
    have hfound := of_trailingCondition hdrop htext condition
    refine ⟨_, [], rfl, fun heq => ?_⟩
    exact erasedCondition_ne_of_misread hmis htext hfound (Head.option.inj heq).2.2

theorem Inside.strays_shortcut {label : List Char}
    (h : Inside c .base true levels
      ('-' :: '>' :: ' ' :: label ++ (conditionChars (some e) ++ rest)))
    (hl : Mode.LabelText label) (labelText : String) :
    Strays ⟨c, a⟩ (a.heads ++ [.shortcut labelText (erasedCondition (some e))]) := by
  obtain ⟨marker, d, hw, hk, hi⟩ := h.arrow
  rw [conditionChars_some] at hi
  have hi' : Inside d .base false levels ((' ' :: label ++ [' ']) ++ '<' :: '<' ::
      (("if ".toList ++ e.chars) ++ '>' :: '>' :: rest)) := by
    rw [List.append_assoc]
    exact hi
  obtain ⟨t, d1, hw1, hk1, _, hi1⟩ := hi'.text (by decide) (by simp) (by simp)
    (Mode.textLength_label_condition label _ hl)
  obtain ⟨opening, command, closing, d2, text, hw2, hopening, htext, hmis⟩ :=
    Inside.misread_condition hs hb hi1
  refine strays_of_item (hw.trans (hw1.trans hw2)) fun e rest item n hitem => ?_
  have hread : ShortcutHead marker (t :: opening :: command :: closing :: rest) item n :=
    shortcutHead_of_readItem hk hitem
  obtain ⟨found, k, hcondition, hheads⟩ := hread.heads
  have hblank : opening.isBlankText = false := by simp [Token.isBlankText, hopening]
  have hdrop : (opening :: command :: closing :: rest).drop
      (if ((opening :: command :: closing :: rest).head?.map
        Token.isBlankText).getD false then 1 else 0) =
      opening :: command :: closing :: rest := by
    simp [hblank]
  have hfound := of_trailingCondition hdrop htext hcondition
  refine ⟨_, [], hheads, fun heq => ?_⟩
  exact erasedCondition_ne_of_misread hmis htext hfound (Head.shortcut.inj heq).2

end

theorem Inside.strays_link {content : List Char}
    (h : Inside c .base lineStart levels ('[' :: '[' :: content ++ ']' :: ']' :: rest))
    (ho : OptionText content) (hl : content.getLast? = some ']') :
    Strays ⟨c, a⟩ (a.heads ++ [.link (String.ofList content)]) := by
  obtain ⟨text, rfl⟩ := List.getLast?_eq_some_iff.1 hl
  have hcut : Inside c .base lineStart levels
      ('[' :: '[' :: text ++ ']' :: ']' :: (']' :: rest)) := by
    simpa using h
  by_cases hne : text = []
  · subst hne
    have hopen : Inside c .base lineStart levels (['[', '['] ++ (']' :: ']' :: ']' :: rest)) := hcut
    obtain ⟨first, c1, hw1, hk1, h1⟩ := hopen.delimiter .optionStart rfl rfl rfl (by decide)
    have hclose : Inside c1 .option false levels ([']', ']'] ++ (']' :: rest)) := h1
    obtain ⟨second, c2, hw2, hk2, _⟩ := hclose.delimiter .optionEnd rfl rfl rfl (by decide)
    refine strays_of_item (hw1.trans hw2) fun e rest item n hitem => ?_
    have hread : OptionRead first (second :: rest) item n := optionRead_of_readItem hk1 hitem
    cases hread with
    | link label _ _ _ =>
      rw [hk2] at label
      cases label
    | option label _ _ _ _ _ =>
      rw [hk2] at label
      cases label
  · have hot : OptionText text := ⟨hne, fun hm => ho.newline (List.mem_append_left _ hm),
      fun hm => ho.bar (List.mem_append_left _ hm), (Text.hasDouble_of_append ho.double).1⟩
    obtain ⟨first, second, third, d, hw, hk1, _, ht, hk3, _⟩ :=
      hcut.link hot (Expr.getLast?_ne_of_hasDouble ho.double)
    refine strays_of_item hw fun e rest item n hitem => ?_
    have hread : OptionRead first (second :: third :: rest) item n :=
      optionRead_of_readItem hk1 hitem
    cases hread with
    | link _ _ _ _ =>
      refine ⟨_, [], rfl, fun heq => ?_⟩
      have hlen := congrArg List.length (String.ofList_injective (Head.link.inj heq))
      have hle := (Text.trim_isInfix text).length_le
      rw [ht, List.length_append, List.length_singleton] at hlen
      omega
    | option _ _ bar _ _ _ =>
      rw [hk3] at bar
      cases bar

end

end Cursor

end Dialogue
