import Dialogue.Proofs.Margins

/-!
# Blanks at the ends of lines

An option has a condition if the condition is the last thing on its line. Blanks behind
it are a text, and then the condition is not read as that of the option. There is no
other place where blanks at the end of a line matter (`ofBody_pad_iff`).
-/

namespace Dialogue
open Statement (conditionedLines conditionedLine)

namespace Body

/-- The body with blanks appended to every line, which may depend on its number. -/
def pad (blanks : Nat → List Char) : List Char → List Char :=
  revise fun number text => text ++ blanks number

theorem contentLines_pad {blanks : Nat → List Char} (h : ∀ number, Blanks (blanks number))
    (body : List Char) : contentLines (pad blanks body) = (contentLines body).map fun line =>
      { line with content := line.content ++ blanks line.number } := by
  have htame : Tame fun number text => text ++ blanks number := by
    constructor
    · intro number text hinner
      rw [List.mem_append, not_or]
      exact ⟨hinner, (h number).not_mem (by decide)⟩
    · intro number text hbare hlast
      rw [List.getLast?_append] at hlast
      cases hpad : (blanks number).getLast? with
      | none => exact hbare (by rwa [hpad, Option.none_or] at hlast)
      | some c =>
        rw [hpad] at hlast
        cases hlast
        exact (h number).not_mem (by decide) (List.mem_of_getLast? hpad)
  refine contentLines_revise htame (fun number text => ?_) body
  rcases blanks_or_content text with hblank | ⟨lead, c, rest, rfl, hlead, hc⟩
  · have hall : Blanks (text ++ blanks number) := List.forall_mem_append.2 ⟨hblank, h number⟩
    rw [contentLine?_of_blanks hall, contentLine?_of_blanks hblank]
    rfl
  · rw [List.append_assoc, List.cons_append, contentLine?_of_content hlead hc,
      contentLine?_of_content hlead hc]
    rfl

end Body

/-- A command closes at the end of the line with this number. -/
def ClosesAt (number : Nat) (ts : List Token) : Prop :=
  ∃ front closing behind, ts = front ++ closing :: behind ∧ closing.kind = .commandEnd ∧
    closing.position.line = number ∧ endsLine behind = true

section

variable {number : Nat} {t : Token} {ts used behind : List Token} {item : Item}

theorem ClosesAt.append (h : ClosesAt number ts) (front : List Token) :
    ClosesAt number (front ++ ts) := by
  obtain ⟨before, closing, behind, rfl, hclosing⟩ := h
  exact ⟨front ++ before, closing, behind, (List.append_assoc _ _ _).symm, hclosing⟩

theorem OnLine.past {front : List Token} (h : OnLine number (front ++ ts))
    (hfront : ∀ u ∈ front, u.kind ∈ TokenKind.ofLine) : OnLine number ts := by
  induction front with
  | nil => exact h
  | cons u front ih =>
    obtain ⟨hu, hfront⟩ := List.forall_mem_cons.1 hfront
    exact ih (h hu).2 hfront

theorem ConditionTaken.closesAt {found : Option Expr} (h : ConditionTaken found used behind)
    (hfound : found.isSome = true) (hline : OnLine number (used ++ behind)) :
    ClosesAt number (used ++ behind) := by
  have hkinds := fun u hu => TokenKind.inner_subset_ofLine (h.kinds u hu)
  cases h with
  | none => cases hfound
  | @some lead _ opening command closing _ blank opens text closes line word =>
    have hsplit : lead ++ [opening, command, closing] ++ behind =
        (lead ++ [opening, command]) ++ closing :: behind := by simp
    have hfront : ∀ u ∈ lead ++ [opening, command], u.kind ∈ TokenKind.ofLine := by
      intro u hu
      refine hkinds u ?_
      rcases List.mem_append.1 hu with hu | hu
      · exact List.mem_append_left _ hu
      · exact List.mem_append_right lead (List.mem_append_left [closing] hu)
    rw [hsplit] at hline ⊢
    have hclosing := (OnLine.past hline hfront (by rw [closes]; decide)).1
    exact ⟨_, closing, behind, rfl, closes, hclosing, line⟩

theorem mem_conditionedLine {line : Nat} {condition : Option Expr} :
    number ∈ conditionedLine line condition ↔ condition.isSome = true ∧ number = line := by
  unfold conditionedLine
  split
  · rename_i hsome
    simp [hsome]
  · rename_i hnone
    simp [hnone]

theorem Says.conditioned {line : Nat} {command : Token} {d : Directive}
    (h : Says line command d) : (d.item t command).conditioned = [] := by
  cases h <;> rfl

theorem Taken.closesAt (h : Taken t item used behind) (hline : Aligned (t :: (used ++ behind)))
    (hmem : number ∈ item.conditioned) : ClosesAt number (used ++ behind) := by
  cases h with
  | newline | blank | indent | dedent | text | link => cases hmem
  | command _ kind text closes said =>
    rw [said.conditioned] at hmem
    cases hmem
  | @option label bar target close used _ found kind text separator destination closes condition =>
    rw [Item.conditioned, Statement.conditionedLines_option, mem_conditionedLine] at hmem
    obtain ⟨hfound, rfl⟩ := hmem
    have hfront : ∀ u ∈ [label, bar, target, close], u.kind ∈ TokenKind.ofLine := by
      simp only [List.forall_mem_cons, text, separator, destination, closes]
      decide
    have hbehind : OnLine t.position.line ([label, bar, target, close] ++ (used ++ behind)) :=
      hline.1 (by rw [kind]; decide)
    have hcloses := condition.closesAt hfound (OnLine.past hbehind hfront)
    exact hcloses.append [label, bar, target, close]
  | @shortcut label used breaks _ found opens kind text condition line =>
    have hfound : found.isSome = true ∧ number = t.position.line := by
      rw [← mem_conditionedLine]
      cases opens <;> simpa [shortcutItem, Item.conditioned] using hmem
    obtain ⟨hfound, rfl⟩ := hfound
    have hsplit : label :: (used ++ breaks) ++ behind =
        [label] ++ (used ++ (breaks ++ behind)) := by simp
    rw [hsplit] at hline ⊢
    have hfront : ∀ u ∈ [label], u.kind ∈ TokenKind.ofLine := by
      simp only [List.forall_mem_singleton, text]
      decide
    have hbehind := OnLine.past (hline.1 (by rw [kind]; decide)) hfront
    exact (condition.closesAt hfound hbehind).append [label]

/-- An option with a condition has been read before, or its condition closes at the end of its line.
-/
theorem Assembly.closesAt_read {a : Assembly} {e : BodyEnd} {found : List Statement}
    (hline : Aligned ts) (h : a.read e ts = .ok found) (hmem : number ∈ conditionedLines found) :
    number ∈ a.conditioned ∨ ClosesAt number ts := by
  fun_induction read e a ts with
  | case1 a =>
    rw [gathers_conditioned.finish h] at hmem
    exact Or.inl hmem
  | case2 a t rest hk =>
    rw [gathers_conditioned.finish h] at hmem
    exact Or.inl hmem
  | case3 => cases h
  | case4 => cases h
  | case5 a t rest _ item n hitem b hadd ih =>
    obtain ⟨used, behind, rfl, rfl, htaken⟩ := taken_of_readItem hitem
    rw [List.drop_left] at h ih
    have hbehind : Aligned behind := by
      have hdrop := hline.drop (used.length + 1)
      rwa [List.drop_succ_cons, List.drop_left] at hdrop
    rcases ih hbehind h with hmem | hcloses
    · rw [conditioned_add hadd] at hmem
      rcases List.mem_append.1 hmem with hmem | hmem
      · exact Or.inl hmem
      · exact Or.inr ((htaken.closesAt hline hmem).append [t])
    · exact Or.inr ((hcloses.append used).append [t])

/-! ### The ends of lines -/

theorem ClosesAt.of_append {part : List Token} (h : ClosesAt number (part ++ ts)) :
    (∃ front closing behind, part = front ++ closing :: behind ∧ closing.kind = .commandEnd ∧
      closing.position.line = number ∧ endsLine (behind ++ ts) = true) ∨ ClosesAt number ts := by
  obtain ⟨front, closing, behind, hsplit, hcloses⟩ := h
  rcases List.append_eq_append_iff.1 hsplit with ⟨between, -, rfl⟩ | ⟨between, rfl, hbetween⟩
  · exact Or.inr ⟨between, closing, behind, rfl, hcloses⟩
  · cases between with
    | nil => exact Or.inr ⟨[], closing, behind, hbetween.symm, hcloses⟩
    | cons t between =>
      obtain ⟨rfl, rfl⟩ := List.cons.inj hbetween
      exact Or.inl ⟨front, closing, between, rfl, hcloses⟩

theorem ClosesAt.of_markers {markers : List Token} (h : ClosesAt number (markers ++ ts))
    (hnone : ∀ u ∈ markers, u.kind ∉ TokenKind.ofLine) : ClosesAt number ts := by
  refine h.of_append.resolve_left ?_
  rintro ⟨front, closing, behind, rfl, hkind, -⟩
  have hout := hnone closing (by simp)
  rw [hkind] at hout
  exact absurd (by decide) hout

theorem ClosesAt.of_line {inner : List Token} (h : ClosesAt number (inner ++ ts))
    (hinner : ∀ u ∈ inner, u.kind ∈ TokenKind.ofLine) :
    (∃ front closing, inner = front ++ [closing] ∧ closing.kind = .commandEnd ∧
      closing.position.line = number) ∨ ClosesAt number ts := by
  refine h.of_append.imp_left ?_
  rintro ⟨front, closing, behind, rfl, hkind, hline, hends⟩
  cases behind with
  | nil => exact ⟨front, closing, rfl, hkind, hline⟩
  | cons u behind =>
    -- The line would go on behind the bracket.
    have hinside : endsLine (u :: behind ++ ts) = false :=
      endsLine_cons_of_kind rfl (hinner u (by simp))
    cases hinside.symm.trans hends

def ContentLine.EndsCommand (line : ContentLine) : Prop :=
  ∃ pieces cs, Lexes .base true line.content (pieces ++ [(.commandEnd, cs)])

theorem ContentLine.Spells.closesAt {line : ContentLine} {inner : List Token}
    (h : line.Spells inner) (hcloses : ClosesAt number (inner ++ ts)) :
    line.number = number ∧ line.EndsCommand ∨ ClosesAt number ts := by
  rcases hcloses.of_line h.kinds with ⟨front, closing, rfl, hkind, hline⟩ | hcloses
  · refine Or.inl ⟨?_, front.map Token.piece, closing.text, ?_⟩
    · rw [← hline, h.number closing (by simp)]
    · have hlexes := h.lexes
      rwa [List.map_append, List.map_singleton, Token.piece, hkind] at hlexes
  · exact Or.inr hcloses

variable {first : ContentLine} {below : List ContentLine}

theorem Spelled.closesAt {stack : List Nat} {z : List Token} (h : Spelled stack below ts)
    (hcloses : ClosesAt number (ts ++ z)) :
    (∃ line ∈ below, line.number = number ∧ line.EndsCommand) ∨ ClosesAt number z := by
  induction h with
  | nil => exact Or.inr hcloses
  | @next _ line _ newline markers inner ts breaks levels here rest ih =>
    have hsplit : newline :: (markers ++ (inner ++ ts)) ++ z =
        newline :: markers ++ (inner ++ (ts ++ z)) := by simp
    rw [hsplit] at hcloses
    have hbehind := hcloses.of_markers fun t => not_mem_ofLine_of_break breaks levels
    rcases here.closesAt hbehind with hline | hbehind
    · exact Or.inl ⟨line, List.mem_cons_self, hline⟩
    · rcases ih hbehind with ⟨lower, hmem, hlower⟩ | hz
      · exact Or.inl ⟨lower, List.mem_cons_of_mem line hmem, hlower⟩
      · exact Or.inr hz

theorem SpellsBody.closesAt (h : SpellsBody first below ts) (hcloses : ClosesAt number ts) :
    ∃ line ∈ first :: below, line.number = number ∧ line.EndsCommand := by
  cases h with
  | @mk inner rest z here lower ends =>
    rw [List.append_assoc] at hcloses
    rcases here.closesAt hcloses with hline | hcloses
    · exact ⟨first, List.mem_cons_self, hline⟩
    · rcases lower.closesAt hcloses with ⟨line, hmem, hline⟩ | hz
      · exact ⟨line, List.mem_cons_of_mem first hmem, hline⟩
      · rw [← List.append_nil z] at hz
        obtain ⟨front, closing, behind, hnil, -⟩ := hz.of_markers ends.not_ofLine
        exact absurd hnil (by simp)

end

/-- The line of an option with a condition ends with the condition. -/
theorem Statement.endsCommand_of_conditioned {body : List Char} {ss : List Statement} {number : Nat}
    (h : ofBody body = .ok ss) (hmem : number ∈ conditionedLines ss) :
    ∃ line ∈ contentLines body, line.number = number ∧ line.EndsCommand := by
  cases hlines : contentLines body with
  | nil =>
    cases h.symm.trans (ofBody_of_contentLines_nil hlines)
    cases hmem
  | cons first below =>
    obtain ⟨ts, hspells, hread, -⟩ := exists_spellsBody hlines (lexed_of_ofBody h hlines)
    obtain ⟨e, hfound⟩ := hread h
    rcases Assembly.closesAt_read hspells.aligned hfound hmem with hnone | hcloses
    · cases hnone
    · exact hspells.closesAt hcloses

theorem Statement.lexed_of_mem {body : List Char} {ss : List Statement} {line : ContentLine}
    (h : ofBody body = .ok ss) (hmem : line ∈ contentLines body) : line.Lexed := by
  cases hlines : contentLines body with
  | nil =>
    rw [hlines] at hmem
    cases hmem
  | cons first below => exact lexed_of_ofBody h hlines line (hlines ▸ hmem)

theorem Padded.last_text {pad : List Char} {pieces others : List (TokenKind × List Char)}
    (h : Padded pad pieces others) : ∃ cs, others.getLast? = some (.text, cs) := by
  induction h with
  | text cs => exact ⟨cs ++ pad, rfl⟩
  | closing => exact ⟨pad, rfl⟩
  | cons piece _ ih =>
    obtain ⟨cs, hcs⟩ := ih
    exact ⟨cs, by rw [List.getLast?_cons, hcs]; rfl⟩

theorem ContentLine.not_endsCommand_of_pad {line other : ContentLine} {pad : List Char}
    (hlexed : line.Lexed) (hne : line.content ≠ []) (hpad : Blanks pad)
    (hcontent : other.content = line.content ++ pad) (hends : other.EndsCommand) : pad = [] := by
  by_contra hmore
  obtain ⟨pieces, hpieces⟩ := hlexed
  obtain ⟨front, cs, hfront⟩ := hends
  obtain ⟨others, hothers, hpadded⟩ := hpieces.append_pad hne hpad hmore
  obtain ⟨text, htext⟩ := hpadded.last_text
  rw [hcontent] at hfront
  rw [hothers.unique hfront, List.getLast?_concat] at htext
  cases htext

namespace Statement
open Body

/-- Blanks at the ends of lines change nothing, but behind the condition of an option. -/
theorem ofBody_pad_iff {blanks : Nat → List Char} (hblanks : ∀ number, Blanks (blanks number))
    {body : List Char} {ss : List Statement} (h : ofBody body = .ok ss) :
    ofBody (pad blanks body) = .ok ss ↔
      ∀ s ∈ blockWithin ss, s.isConditioned = true → blanks s.line = [] := by
  constructor
  · intro hpadded s hs hcondition
    have hmem : s.line ∈ conditionedLines ss :=
      List.mem_map_of_mem (List.mem_filter.2 ⟨hs, hcondition⟩)
    obtain ⟨other, hother, hnumber, hends⟩ := endsCommand_of_conditioned hpadded hmem
    rw [contentLines_pad hblanks] at hother
    obtain ⟨line, hline, rfl⟩ := List.mem_map.1 hother
    rw [← hnumber]
    exact ContentLine.not_endsCommand_of_pad (lexed_of_mem h hline) (content_ne_nil_of_mem hline)
      (hblanks line.number) rfl hends
  · intro hnone
    have hlines : List.Forall₂ (ContentLine.Akin (· = ·) id fun number => blanks number ≠ [])
        (contentLines body) (contentLines (pad blanks body)) := by
      rw [contentLines_pad hblanks, List.forall₂_map_right_iff]
      exact List.forall₂_same.2 fun line hline =>
        ⟨rfl, rfl, content_ne_nil_of_mem hline, _, hblanks line.number, rfl, id⟩
    have hfirm : ∀ number ∈ conditionedLines ss, ¬blanks number ≠ [] := by
      intro number hmem
      obtain ⟨s, hs, rfl⟩ := List.mem_map.1 hmem
      obtain ⟨hs, hcondition⟩ := List.mem_filter.1 hs
      exact not_not.2 (hnone s hs hcondition)
    rw [ofBody_akin keepsOrder_eq hlines h hfirm, blockMapLines_id]

def signpost : List Char := "[[a|b]] <<if $x>>\n-> c\n\td <<e>>".toList

theorem ofBody_signpost : ofBody signpost = .ok
    [.option 1 "a" "b" (some (.var 1 "x")),
      .shortcut 2 "c" none [.text 3 "d", .command 3 "e"]] := by
  cbv

/-- Blanks behind the last two lines are not noticed. One behind the first line is. -/
theorem ofBody_pad_iff_signpost :
    ofBody (pad (fun number => if number = 1 then [] else [' ', '\t']) signpost) =
        ofBody signpost ∧
      ofBody (pad (fun _ => [' ']) signpost) ≠ ofBody signpost := by
  rw [ofBody_signpost]
  constructor
  · refine (ofBody_pad_iff (fun number => ?_) ofBody_signpost).2 ?_
    · split <;> simp [Blanks, Text.isIndent]
    · simp [blockWithin, within, isConditioned, line]
  · intro hread
    have hblank : Blanks [' '] := by simp [Blanks, Text.isIndent]
    have hnone := (ofBody_pad_iff (fun _ => hblank) ofBody_signpost).1 hread
    exact absurd (hnone _ List.mem_cons_self rfl) (List.cons_ne_nil _ _)

end Statement

end Dialogue
