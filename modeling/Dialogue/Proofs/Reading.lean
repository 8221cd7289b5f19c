import Dialogue.Proofs.Layout
import Dialogue.Statement.Block
import Dialogue.Statement.Printer

/-!
# Reading the items of a written line

The tokens of a written line are read as the item that the line was written for.
Every reader is given the tokens of its line and the line break behind them, and
looks no further than the token behind that.
-/

namespace Dialogue

theorem leadingWord_append (c : Char) (word rest : List Char) (hb : Text.isBlank c = false)
    (hw : (c :: word).all isKeywordChar = true)
    (hr : ∀ d ∈ rest.head?, isKeywordChar d = false) :
    leadingWord (c :: word ++ rest) = (c :: word, (c :: word).length) := by
  have ht : Text.trimStart (c :: word ++ rest) = c :: word ++ rest :=
    Text.trimStart_eq_self fun d hd => by
      cases hd
      exact hb
  unfold leadingWord
  simp only
  rw [ht, Expr.takeWhile_append_of_head _ _ hw hr, Nat.sub_self, Nat.zero_add]

theorem expressionAt_chars (t : Token) (n : Nat) (e : Expr) (hs : e.spellable = true)
    (hf : e.finite = true) (ht : t.text.drop n = ' ' :: e.chars) :
    t.expressionAt n = .ok (e.atLine t.position.line) := by
  have hspace := Expr.spells_skipped ' ' (e.chars ++ []) (by decide)
  have hspells := hspace.append (Expr.spells_chars e [] hs Expr.ends_nil)
  rw [Token.expressionAt, ht]
  exact Expr.parseAt_of_spells e hf _ _ hspells

section Directives

variable (line : Nat) (t : Token)

theorem readDirective_ifWord (rest : List Char) (ht : t.text = "if ".toList ++ rest) :
    readDirective line t = (t.expressionAt 2).map .ifStart := by
  have hw : leadingWord t.text = ("if".toList, 2) := by
    rw [ht]
    exact leadingWord_append 'i' ['f'] (' ' :: rest) (by decide) (by decide) (by simp; decide)
  unfold readDirective
  rw [hw]
  rfl

theorem readDirective_if (e : Expr) (hs : e.spellable = true) (hf : e.finite = true)
    (ht : t.text = "if ".toList ++ e.chars) :
    readDirective line t = .ok (.ifStart (e.atLine t.position.line)) := by
  rw [readDirective_ifWord line t e.chars ht, expressionAt_chars t 2 e hs hf (by rw [ht]; rfl)]
  rfl

theorem readDirective_elseifWord (rest : List Char) (ht : t.text = "elseif ".toList ++ rest) :
    readDirective line t = (t.expressionAt 6).map fun e => .clause (.elseIf e) := by
  have hw : leadingWord t.text = ("elseif".toList, 6) := by
    rw [ht]
    exact leadingWord_append 'e' "lseif".toList (' ' :: rest) (by decide) (by decide)
      (by simp; decide)
  unfold readDirective
  rw [hw]
  rfl

theorem readDirective_elseif (e : Expr) (hs : e.spellable = true) (hf : e.finite = true)
    (ht : t.text = "elseif ".toList ++ e.chars) :
    readDirective line t = .ok (.clause (.elseIf (e.atLine t.position.line))) := by
  rw [readDirective_elseifWord line t e.chars ht, expressionAt_chars t 6 e hs hf (by rw [ht]; rfl)]
  rfl

theorem readDirective_else (ht : t.text = "else".toList) :
    readDirective line t = .ok (.clause .otherwise) := by
  unfold readDirective
  rw [ht]
  unfold elseClause
  rw [ht]
  rfl

theorem readDirective_endif (ht : t.text = "endif".toList) :
    readDirective line t = .ok (.clause .endIf) := by
  unfold readDirective
  rw [ht]
  rfl

theorem readDirective_setWord (rest : List Char) (ht : t.text = "set".toList ++ ' ' :: rest) :
    readDirective line t = (Expr.parseAssignmentAt (t.positionAt 3) (' ' :: rest)).map fun a =>
      .statement (.assignment line a.target a.op a.value) := by
  have hw : leadingWord t.text = ("set".toList, 3) := by
    rw [ht]
    exact leadingWord_append 's' ['e', 't'] (' ' :: rest) (by decide) (by decide) (by simp; decide)
  have hdrop : t.text.drop 3 = ' ' :: rest := by
    rw [ht]
    rfl
  unfold readDirective
  rw [hw]
  simp only
  rw [hdrop]
  rfl

def assignmentLead (target : String) (op : AssignOp) : List Char :=
  ' ' :: '$' :: target.toList ++ ' ' :: op.symbol.toList ++ [' ']

theorem spells_assignmentLead (target : String) (op : AssignOp) (rest : List Char)
    (hi : Expr.isIdentifier target.toList = true) :
    Expr.Spells (assignmentLead target op) [.var target, .symbol op.token] rest := by
  have hbehind := Expr.spells_skipped ' ' rest (by decide)
  have hop := (Expr.spells_symbol op.token _ (by simp)).append hbehind
  have hbefore := (Expr.spells_skipped ' ' _ (by decide)).append hop
  have htarget := (Expr.spells_var target.toList _ hi
    (Expr.ends_cons ' ' _ (by decide) (by decide))).append hbefore
  have hall := (Expr.spells_skipped ' ' _ (by decide)).append htarget
  rw [String.ofList_toList, AssignOp.chars_token] at hall
  simpa [assignmentLead] using hall

theorem readDirective_set (target : String) (op : AssignOp) (value : Expr)
    (hi : Expr.isIdentifier target.toList = true) (hs : value.spellable = true)
    (hf : value.finite = true)
    (ht : t.text = "set".toList ++ (assignmentLead target op ++ value.chars)) :
    readDirective line t =
      .ok (.statement (.assignment line target op (value.atLine t.position.line))) := by
  have hspells := (spells_assignmentLead target op (value.chars ++ []) hi).append
    (Expr.spells_chars value [] hs Expr.ends_nil)
  have hp := Expr.parseAssignmentAt_of_spells target op value hf (t.positionAt 3) _ hspells
  rw [readDirective_setWord line t _ ht]
  exact congrArg (Except.map _) hp

theorem readDirective_command (h : isDirective t.text = false) :
    readDirective line t =
      .ok (.statement (.command line (String.ofList (Text.trim t.text)))) := by
  have hword : ∀ w ∈ directiveWords, String.ofList (leadingWord t.text).1 ≠ w := by
    intro w hw he
    have hc : isDirective t.text = true := by
      unfold isDirective
      rw [he]
      exact List.elem_eq_true_of_mem hw
    rw [h] at hc
    cases hc
  unfold readDirective
  simp only
  split
  · rename_i he
    exact absurd he (hword "set" (by decide))
  · rename_i he
    exact absurd he (hword "if" (by decide))
  · rename_i he
    exact absurd he (hword "elseif" (by decide))
  · rename_i he
    exact absurd he (hword "else" (by decide))
  · rename_i he
    exact absurd he (hword "endif" (by decide))
  · rfl

end Directives

def Directive.item (start command : Token) : Directive → Item
  | .statement s => .statement s
  | .ifStart condition => .ifStart start.position.line condition
  | .clause kind => .clause ⟨kind, String.ofList (Text.trim command.text), start.position⟩

section Items

variable (e : BodyEnd)

theorem readItem_command {first second third : Token} (rest : List Token) {d : Directive}
    (hf : first.kind = .commandStart) (hs : second.kind = .text) (ht : third.kind = .commandEnd)
    (hd : readDirective first.position.line second = .ok d) :
    readItem e first (second :: third :: rest) = .ok (d.item first second, 2) := by
  unfold readItem
  rw [hf]
  cases d <;>
    simp [readCommand, BodyEnd.expect, hs, ht, hd, Directive.item, bind, Except.bind, pure,
      Except.pure]

/-! ### Conditions -/

structure ConditionTokens (condition : Expr) (first second third : Token) : Prop where
  opening : first.kind = .commandStart
  command : second.kind = .text
  text : second.text = "if ".toList ++ condition.chars
  closing : third.kind = .commandEnd

/-- A condition at the end of a line is read, with one blank in front of it or with none. -/
theorem trailingCondition_some {condition : Expr} {lead : List Token} {first second third : Token}
    {rest : List Token} (hlead : lead = [] ∨ ∃ blank, lead = [blank] ∧ blank.isBlankText = true)
    (h : ConditionTokens condition first second third) (hs : condition.spellable = true)
    (hf : condition.finite = true) (hl : endsLine rest = true) :
    trailingCondition (lead ++ first :: second :: third :: rest) =
      .ok (some (condition.atLine second.position.line), lead.length + 3) := by
  have hw : leadingWord second.text = ("if".toList, 2) := by
    rw [h.text]
    exact leadingWord_append 'i' ['f'] (' ' :: condition.chars) (by decide) (by decide)
      (by simp; decide)
  have he := expressionAt_chars second 2 condition hs hf (by rw [h.text]; rfl)
  have hfirst : first.isBlankText = false := by simp [Token.isBlankText, h.opening]
  unfold trailingCondition
  rcases hlead with rfl | ⟨blank, rfl, hb⟩
  · simp only [List.nil_append, List.head?_cons, Option.map_some, Option.getD_some, hfirst]
    simp only [Bool.false_eq_true, if_false, List.drop_zero, hw, h.opening, h.command, h.closing,
      hl, he]
    rfl
  · simp only [List.singleton_append, List.head?_cons, Option.map_some, Option.getD_some, hb]
    simp only [if_true, List.drop_succ_cons, List.drop_zero, hw, h.opening, h.command, h.closing,
      hl, he]
    rfl

theorem trailingCondition_none {t : Token} {rest : List Token} (hb : t.isBlankText = false)
    (hk : t.kind ≠ .commandStart) : trailingCondition (t :: rest) = .ok (none, 0) := by
  unfold trailingCondition
  simp only [List.head?_cons, Option.map_some, Option.getD_some, hb]
  simp only [Bool.false_eq_true, if_false, List.drop_zero]
  split
  · rename_i first command last rest' he
    obtain ⟨rfl, _⟩ := List.cons.inj he
    simp only [hk, false_and, if_false]
  · rfl

theorem isBlankText_of_newline {t : Token} (h : t.kind = .newline) : t.isBlankText = false := by
  simp [Token.isBlankText, h]

theorem endsLine_of_newline {t : Token} (rest : List Token) (h : t.kind = .newline) :
    endsLine (t :: rest) = true := by
  simp [endsLine, h]

theorem getLast?_shielded (cs : List Char) : (Prose.shielded cs).getLast? = cs.getLast? := by
  induction cs with
  | nil => rfl
  | cons c cs ih =>
    rw [Prose.shielded]
    cases cs with
    | nil => split <;> rfl
    | cons d ds =>
      have hne : Prose.shielded (d :: ds) ≠ [] := by
        rw [Prose.shielded]
        split <;> exact List.cons_ne_nil _ _
      obtain ⟨x, xs, hx⟩ := List.exists_cons_of_ne_nil hne
      rw [hx] at ih
      rw [hx]
      split <;> simpa using ih

theorem phrase_escape {cs : List Char} (h : Text.Phrase cs) :
    Text.trim (Prose.escape cs) = Prose.escape cs := by
  have hslash : Text.isBlank '\\' = false := by decide
  have hlast : (Prose.escape cs).getLast? = cs.getLast? := by
    unfold Prose.escape
    split
    · rename_i rest
      have hne : Prose.shielded ('-' :: '>' :: rest) ≠ [] := by
        rw [Prose.shielded]
        split <;> exact List.cons_ne_nil _ _
      obtain ⟨x, xs, hx⟩ := List.exists_cons_of_ne_nil hne
      rw [← getLast?_shielded ('-' :: '>' :: rest), hx]
      simp
    · exact getLast?_shielded cs
  have hfirst : ∀ c ∈ (Prose.escape cs).head?, Text.isBlank c = false := by
    intro c hc
    unfold Prose.escape at hc
    split at hc
    · cases hc
      exact hslash
    · rcases Mode.head?_shielded cs with hh | hh
      · exact h.first c (by rw [← hh]; exact hc)
      · rw [hh] at hc
        cases hc
        exact hslash
  rw [Text.trim, Text.trimStart_eq_self hfirst, Text.trimEnd_eq_self]
  intro c hc
  rw [hlast] at hc
  exact h.last c hc

theorem readItem_text {t : Token} (rest : List Token) {content : List Char}
    (hk : t.kind = .text) (ht : t.text = Prose.escape content) (hp : Text.Phrase content) :
    readItem e t rest = .ok (.statement (.text t.position.line (String.ofList content)), 0) := by
  have hne := Mode.escape_ne_nil content hp.ne_nil
  unfold readItem
  rw [hk]
  simp only
  rw [ht, phrase_escape hp, if_neg hne, Prose.unescape_escape]

theorem readItem_link {first second third newline : Token} (rest : List Token)
    {content : List Char} (hf : first.kind = .optionStart) (hs : second.kind = .text)
    (hst : second.text = content) (ht : third.kind = .optionEnd) (hn : newline.kind = .newline)
    (hp : Text.Phrase content) :
    readItem e first (second :: third :: newline :: rest) =
      .ok (.statement (.link first.position.line (String.ofList content)), 2) := by
  have hc : trailingCondition (newline :: rest) = .ok (none, 0) :=
    trailingCondition_none (isBlankText_of_newline hn) (by rw [hn]; decide)
  unfold readItem
  rw [hf]
  simp [readOption, BodyEnd.expect, hs, hst, hp.trim, hp.ne_nil, ht, hc, bind, Except.bind, pure,
    Except.pure]

theorem trim_destination {target : List Char} (ht : target.all Mode.isDestinationChar = true) :
    Text.trim target = target := by
  have hblank : ∀ c ∈ target, Text.isBlank c = false :=
    fun c hc => Mode.isBlank_of_isDestinationChar c (List.all_eq_true.1 ht c hc)
  rw [Text.trim, Text.trimStart_eq_self fun c hc => hblank c (List.mem_of_mem_head? hc),
    Text.trimEnd_eq_self fun c hc => hblank c (List.mem_of_getLast? hc)]

theorem readItem_option {first second third fourth fifth : Token} (rest : List Token)
    {content target : List Char} {condition : Option Expr} {n : Nat}
    (hf : first.kind = .optionStart) (hs : second.kind = .text) (hst : second.text = content)
    (ht : third.kind = .optionSep) (ho : fourth.kind = .identifier) (hot : fourth.text = target)
    (hi : fifth.kind = .optionEnd) (hc : trailingCondition rest = .ok (condition, n))
    (hp : Text.Phrase content) (htarget : Text.trim target = target) :
    readItem e first (second :: third :: fourth :: fifth :: rest) =
      .ok (.statement (.option first.position.line (String.ofList content)
        (String.ofList target) condition), 4 + n) := by
  unfold readItem
  rw [hf]
  simp [readOption, BodyEnd.expect, hs, hst, hp.trim, hp.ne_nil, ht, ho, hot, hi, hc, htarget,
    bind, Except.bind, pure, Except.pure]

theorem readItem_shortcut {marker label newline next : Token} (condition : List Token)
    (rest : List Token) {content : List Char} {found : Option Expr}
    (hm : marker.kind = .shortcutMarker) (hl : label.kind = .text)
    (hlt : Text.trim label.text = content) (hne : content ≠ [])
    (hc : trailingCondition (condition ++ newline :: next :: rest) =
      .ok (found, condition.length))
    (hn : newline.kind = .newline) :
    readItem e marker (label :: (condition ++ newline :: next :: rest)) =
      if next.kind = .indent then
        .ok (.shortcut marker.position.line (String.ofList content) found, condition.length + 3)
      else
        .ok (.statement (.shortcut marker.position.line (String.ofList content) found []),
          condition.length + 2) := by
  have hends := endsLine_of_newline (next :: rest) hn
  unfold readItem
  rw [hm]
  by_cases hi : next.kind = .indent <;>
    simp [readShortcut, BodyEnd.expect, hl, hlt, hne, hc, hends, lineBreakTokens, hn, hi, bind,
      Except.bind, pure, Except.pure] <;>
    omega

end Items

end Dialogue
