import Dialogue.Proofs.Lossless
import Dialogue.Proofs.Sealing

/-!
# Lexing a written line

A cursor inside a line hands out the tokens that the line was written from, as long
as their texts hold nothing that their mode stops at. Behind the line break stand
the markers of the levels that the next line opens or closes. Where tokens stand is
left open here: a walk from one cursor to another fixes their kinds and texts only.
-/

namespace Dialogue

namespace Cursor

inductive Walks : Cursor → List Token → Cursor → Prop
  | nil (c : Cursor) : Walks c [] c
  | cons {c d f : Cursor} {t : Token} {ts : List Token} (first : c.step = (t, d))
      (more : t.kind.isFinal = false) (rest : Walks d ts f) : Walks c (t :: ts) f

theorem Walks.trans {c d f : Cursor} {ts us : List Token} (h : Walks c ts d) (h' : Walks d us f) :
    Walks c (ts ++ us) f := by
  induction h with
  | nil => exact h'
  | cons first more _ ih => exact .cons first more (ih h')

theorem Walks.tokens? {c d : Cursor} {ts : List Token} (h : Walks c ts d) :
    c.tokens? = d.tokens?.map (ts ++ ·) := by
  induction h with
  | nil c => cases hc : c.tokens? <;> simp [Except.map]
  | cons first more _ ih =>
    rename_i c d f t ts _
    have hfinal : c.step.1.kind.isFinal = false := by rw [first]; exact more
    rw [tokens?_of_not_isFinal c hfinal, first]
    simp only [ih]
    cases f.tokens? <;> rfl

/-- The cursor stands in front of `rest`, with nothing owed. -/
structure Inside (c : Cursor) (mode : Mode) (lineStart : Bool) (levels : List Nat)
    (rest : List Char) : Prop where
  mode : c.mode = mode
  lineStart : c.lineStart = lineStart
  levels : c.levels = levels
  rest : c.rest = rest
  owed : c.owed = []
  base : c.start.base = 0
  lead : c.leadLength = 0

theorem Inside.step {c : Cursor} {mode : Mode} {lineStart : Bool} {levels : List Nat}
    {rest : List Char} (h : Inside c mode lineStart levels rest) (hr : rest ≠ []) :
    c.step = c.start.stepContent := by
  unfold Cursor.step
  rw [h.owed]
  simp only
  have hlead : ¬c.leadLength ≠ 0 := by simp [h.lead]
  have hrest : ¬c.rest = [] := by
    rw [h.rest]
    exact hr
  rw [if_neg hlead, if_neg hrest]

theorem Inside.token {c : Cursor} {mode : Mode} {lineStart : Bool} {levels : List Nat}
    {text rest : List Char} {kind : TokenKind}
    (h : Inside c mode lineStart levels (text ++ rest))
    (ht : mode.tokenAt lineStart (text ++ rest) = some (kind, text.length))
    (hn : kind ≠ .newline) :
    ∃ t d, Walks c [t] d ∧ t.kind = kind ∧ t.text = text ∧
      Inside d (mode.after kind) false levels rest := by
  have hpos := Mode.tokenAt_pos _ _ _ _ _ ht
  have hne : text ++ rest ≠ [] := by
    intro he
    rw [List.append_eq_nil_iff.1 he |>.1] at hpos
    simp at hpos
  have hfinal := (TokenKind.of_mem_covering (Mode.tokenAt_kind ht)).2.2
  have hmode : c.start.mode = mode := h.mode
  have hline : c.start.lineStart = lineStart := h.lineStart
  have hrest : c.start.rest = text ++ rest := h.rest
  have hstep : c.start.stepContent =
      (c.start.cut kind text.length, (c.start.skip text.length).enter kind) := by
    unfold stepContent
    rw [hmode, hline, hrest, ht]
    simp only
    rw [if_neg hn]
  refine ⟨_, _, .cons ((h.step hne).trans hstep) hfinal (.nil _), rfl, ?_, ?_⟩
  · simp [cut, hrest]
  · constructor
    · simp [enter, skip, hmode]
    · simp [enter, hn]
    · exact h.levels
    · simp [enter, skip, hrest]
    · exact h.owed
    · simpa [enter, skip, start] using h.base
    · simp [leadLength, enter, skip, start]

/-! ### Line breaks -/

/-- The levels that are open where every level is one tab deeper than the one around it. -/
def tabLevels : Nat → List Nat
  | 0 => []
  | n + 1 => (n + 1) :: tabLevels n

theorem headD_tabLevels (n : Nat) : (tabLevels n).headD 0 = n := by
  cases n <;> rfl

theorem closedLevels_tabLevels (width n : Nat) :
    closedLevels 0 width (tabLevels n) = n - width := by
  induction n with
  | zero => simp [tabLevels, closedLevels]
  | succ n ih =>
    rw [tabLevels, closedLevels, headD_tabLevels, ih]
    split <;> omega

theorem drop_tabLevels (n k : Nat) : (tabLevels n).drop k = tabLevels (n - k) := by
  induction k generalizing n with
  | zero => rfl
  | succ k ih =>
    cases n with
    | zero => simp [tabLevels]
    | succ n =>
      rw [tabLevels, List.drop_succ_cons, ih]
      congr 1
      omega

def BeginsLine (cs : List Char) : Prop := ∃ c rest, cs = c :: rest ∧ Text.isBlank c = false

theorem BeginsLine.blankLength {cs : List Char} (h : BeginsLine cs) : blankLength cs = 0 := by
  obtain ⟨c, rest, rfl, hc⟩ := h
  have hn : c ≠ '\n' := by
    rintro rfl
    revert hc
    decide
  have hr : c ≠ '\r' := by
    rintro rfl
    revert hc
    decide
  have hi : Text.isIndent c = false := by
    cases hi : Text.isIndent c with
    | false => rfl
    | true =>
      rw [Text.isBlank_of_isIndent c hi] at hc
      cases hc
  unfold Dialogue.blankLength
  split <;> simp_all

theorem blankLength_tabs (indent : Nat) (rest : List Char) :
    blankLength (List.replicate indent '\t' ++ rest) = blankLength rest + indent := by
  induction indent with
  | zero => simp
  | succ n ih =>
    rw [List.replicate_succ, List.cons_append, blankLength]
    · rw [if_pos (by decide), ih]
      omega
    · simp
    · simp

/-- What follows a line: another line, indented by so many tabs, or the end of the body. -/
inductive Next : Nat → List Char → List Char → Prop
  | line (indent : Nat) (rest : List Char) (begins : BeginsLine rest) :
      Next indent rest (List.replicate indent '\t' ++ rest)
  | last : Next 0 [] []

theorem Next.blankLength {indent : Nat} {rest following : List Char}
    (h : Next indent rest following) : Dialogue.blankLength ('\n' :: following) = 1 + indent := by
  cases h with
  | line _ _ begins =>
    rw [Dialogue.blankLength, blankLength_tabs, begins.blankLength]
    omega
  | last => rfl

theorem Next.eq_append {indent : Nat} {rest following : List Char}
    (h : Next indent rest following) : following = List.replicate indent '\t' ++ rest := by
  cases h <;> rfl

theorem advance_tabs (position : Position) (indent : Nat) :
    (position.advance (List.replicate indent '\t')).column = position.column + indent := by
  induction indent generalizing position with
  | zero => rfl
  | succ n ih =>
    rw [List.replicate_succ, Position.advance_cons, ih]
    simp only [Position.next]
    rw [if_neg (by decide)]
    simp only
    omega

/-- The cursor stands at the beginning of a line of this level, or at the end of the body, and
`closing` markers for closed levels are still to come. -/
structure Between (c : Cursor) (level closing : Nat) (line : List Char) : Prop where
  mode : c.mode = .base
  lineStart : c.lineStart = true
  rest : c.rest = line
  base : c.base = 0
  started : c.started = true
  markers : (line ≠ [] ∧ c.owed = .replicate closing .dedent ∧ c.levels = tabLevels level) ∨
    (line = [] ∧ level = 0 ∧ c.owed = [] ∧ c.levels = tabLevels closing)

theorem Between.inside {c : Cursor} {level : Nat} {rest : List Char}
    (h : Between c level 0 rest) (hr : rest ≠ []) :
    Inside c .base true (tabLevels level) rest := by
  rcases h.markers with ⟨_, ho, hl⟩ | ⟨he, _⟩
  · exact ⟨h.mode, h.lineStart, hl, h.rest, ho, by simp [start, h.started, h.base],
      by simp [leadLength, h.started]⟩
  · exact absurd he hr

theorem Between.dedent {c : Cursor} {level closing : Nat} {rest : List Char}
    (h : Between c level (closing + 1) rest) :
    ∃ t d, Walks c [t] d ∧ t.kind = .dedent ∧ Between d level closing rest := by
  rcases h.markers with ⟨hr, ho, hl⟩ | ⟨hr, hlevel, ho, hl⟩
  · have hstep := step_of_owed (ho.trans List.replicate_succ)
    exact ⟨_, _, .cons hstep rfl (.nil _), rfl,
      ⟨h.mode, h.lineStart, h.rest, h.base, h.started, Or.inl ⟨hr, rfl, hl⟩⟩⟩
  · have hlevels : c.levels = (closing + 1) :: tabLevels closing := hl
    have hstep : c.step = (c.marker .dedent, { c with levels := tabLevels closing }) := by
      rw [step_of_started h.started ho, if_pos (h.rest.trans hr), stepEnd, hlevels]
    exact ⟨_, _, .cons hstep rfl (.nil _), rfl,
      ⟨h.mode, h.lineStart, h.rest, h.base, h.started, Or.inr ⟨hr, hlevel, ho, rfl⟩⟩⟩

theorem Between.tokens? {c : Cursor} (h : Between c 0 0 []) :
    ∃ t, c.tokens? = .ok [t] ∧ t.kind = .endOfInput := by
  have ho : c.owed = [] := by
    rcases h.markers with ⟨hr, _⟩ | ⟨_, _, ho, _⟩
    · exact absurd rfl hr
    · exact ho
  have hl : c.levels = [] := by
    rcases h.markers with ⟨hr, _⟩ | ⟨_, _, _, hl⟩
    · exact absurd rfl hr
    · exact hl
  have hstep : c.step = (c.marker .endOfInput, c) := by
    rw [step_of_started h.started ho, if_pos h.rest, stepEnd, hl]
  refine ⟨c.marker .endOfInput, ?_, rfl⟩
  rw [Cursor.tokens?, hstep, dif_neg (by simp [marker, TokenKind.isFinal]),
    if_neg (by simp [marker])]

/-- The cursor stands at the beginning of a line whose indentation has not been measured yet. -/
structure Unmeasured (c : Cursor) (level indent : Nat) (line : List Char) : Prop where
  mode : c.mode = .base
  lineStart : c.lineStart = true
  levels : c.levels = tabLevels level
  rest : c.rest = line
  owed : c.owed = []
  base : c.base = 0
  started : c.started = true
  column : c.position.column = indent + 1

theorem Inside.newline {c : Cursor} {lineStart : Bool} {level indent : Nat}
    {line following : List Char}
    (h : Inside c .base lineStart (tabLevels level) ('\n' :: following))
    (hn : Next indent line following) :
    ∃ t d, c.step = (t, Cursor.measure d) ∧ t.kind = .newline ∧ Unmeasured d level indent line := by
  have hmode : c.start.mode = .base := h.mode
  have hrest : c.start.rest = '\n' :: following := h.rest
  have hb := hn.blankLength
  have ht : Mode.base.tokenAt c.start.lineStart ('\n' :: following) =
      some (.newline, 1 + indent) := by
    simp [Mode.tokenAt, Mode.atArrow, Mode.delimiter?, atLineBreak, hb]
  have hstep : c.start.stepContent = (c.start.cut .newline (1 + indent),
      ((c.start.skip (1 + indent)).enter .newline).measure) := by
    unfold stepContent
    rw [hmode, hrest, ht]
    simp
  have htabs : ('\n' :: following).take (1 + indent) = '\n' :: List.replicate indent '\t' := by
    rw [hn.eq_append, Nat.add_comm, List.take_succ_cons, List.take_left' (by simp)]
  have hdrop : ('\n' :: following).drop (1 + indent) = line := by
    rw [hn.eq_append, Nat.add_comm, List.drop_succ_cons, List.drop_left' (by simp)]
  refine ⟨_, _, (h.step (List.cons_ne_nil _ _)).trans hstep, rfl, ?_⟩
  constructor
  · simp [enter, skip, hmode, Mode.after]
  · rfl
  · exact h.levels
  · simp only [enter, skip, hrest]
    exact hdrop
  · exact h.owed
  · exact h.base
  · rfl
  · simp only [enter, skip, hrest]
    rw [htabs, Position.advance_cons, advance_tabs]
    simp [Position.next, Nat.add_comm]

theorem Unmeasured.close {c : Cursor} {level indent : Nat} {line : List Char}
    (h : Unmeasured c level indent line) (hl : line ≠ [] ∨ indent = 0) (hle : indent ≤ level) :
    Between c.measure indent (level - indent) line := by
  have hw : c.position.column - 1 = indent := by
    rw [h.column]
    omega
  have hclosed : closedLevels c.base indent c.levels = level - indent := by
    rw [h.base, h.levels, closedLevels_tabLevels]
  have hdeep : ¬c.levels.headD c.base < indent := by
    rw [h.base, h.levels, headD_tabLevels]
    omega
  by_cases he : line = []
  · have hzero : indent = 0 := hl.resolve_left (fun hne => hne he)
    have hm : c.measure = c := by
      unfold measure
      simp only
      rw [if_pos (h.rest.trans he)]
    rw [hm]
    refine ⟨h.mode, h.lineStart, h.rest, h.base, h.started, Or.inr ⟨he, hzero, h.owed, ?_⟩⟩
    rw [h.levels, hzero, Nat.sub_zero]
  · have hm : c.measure = { c with
        levels := c.levels.drop (level - indent), owed := .replicate (level - indent) .dedent } := by
      unfold measure
      simp only
      rw [if_neg (by rw [h.rest]; exact he), hw, if_neg hdeep, hclosed]
    rw [hm]
    refine ⟨h.mode, h.lineStart, h.rest, h.base, h.started, Or.inl ⟨he, rfl, ?_⟩⟩
    simp only
    rw [h.levels, drop_tabLevels]
    congr 1
    omega

theorem Next.line_ne_nil {indent : Nat} {line following : List Char}
    (h : Next indent line following) : line ≠ [] ∨ indent = 0 := by
  cases h with
  | line _ _ begins =>
    obtain ⟨c, rest, rfl, _⟩ := begins
    exact Or.inl (List.cons_ne_nil _ _)
  | last => exact Or.inr rfl

theorem Inside.newline_close {c : Cursor} {lineStart : Bool} {level indent : Nat}
    {line following : List Char}
    (h : Inside c .base lineStart (tabLevels level) ('\n' :: following))
    (hn : Next indent line following) (hle : indent ≤ level) :
    ∃ t d, Walks c [t] d ∧ t.kind = .newline ∧ Between d indent (level - indent) line := by
  obtain ⟨t, d, hstep, hk, hd⟩ := h.newline hn
  have hfinal : t.kind.isFinal = false := by
    rw [hk]
    rfl
  exact ⟨t, d.measure, .cons hstep hfinal (.nil _), hk, hd.close hn.line_ne_nil hle⟩

theorem Inside.newline_open {c : Cursor} {lineStart : Bool} {level : Nat}
    {line following : List Char}
    (h : Inside c .base lineStart (tabLevels level) ('\n' :: following))
    (hn : Next (level + 1) line following) :
    ∃ t u d, Walks c [t, u] d ∧ t.kind = .newline ∧ u.kind = .indent ∧
      Between d (level + 1) 0 line := by
  obtain ⟨t, d, hstep, hk, hd⟩ := h.newline hn
  have hne : line ≠ [] := hn.line_ne_nil.resolve_right (by omega)
  have hfinal : t.kind.isFinal = false := by
    rw [hk]
    rfl
  have hw : d.position.column - 1 = level + 1 := by
    rw [hd.column]
    omega
  have hdeep : d.levels.headD d.base < level + 1 := by
    rw [hd.base, hd.levels, headD_tabLevels]
    omega
  have hm : d.measure = { d with levels := (level + 1) :: d.levels, owed := [.indent] } := by
    unfold measure
    simp only
    rw [if_neg (by rw [hd.rest]; exact hne), hw, if_pos hdeep]
  have hmark : d.measure.step = (d.measure.marker .indent, { d.measure with owed := [] }) := by
    rw [hm]
    rfl
  refine ⟨t, d.measure.marker .indent, { d.measure with owed := [] },
    .cons hstep hfinal (.cons hmark rfl (.nil _)), hk, rfl, ?_⟩
  rw [hm]
  refine ⟨hd.mode, hd.lineStart, hd.rest, hd.base, hd.started, Or.inl ⟨hne, rfl, ?_⟩⟩
  simp only
  rw [hd.levels]
  rfl

/-! ### Brackets and texts -/

section

variable {c : Cursor} {lineStart : Bool} {levels : List Nat}

theorem Inside.delimiter {mode : Mode} {bracket rest : List Char} (kind : TokenKind)
    (h : Inside c mode lineStart levels (bracket ++ rest))
    (ha : Mode.atArrow (bracket ++ rest) = false)
    (hd : mode.delimiter? (bracket ++ rest) = some kind)
    (hl : Mode.delimiterLength kind = bracket.length) (hn : kind ≠ .newline) :
    ∃ t d, Walks c [t] d ∧ t.kind = kind ∧ Inside d (mode.after kind) false levels rest := by
  have ht := Mode.tokenAt_delimiter mode lineStart _ kind ha hd
  rw [hl] at ht
  obtain ⟨t, d, hw, hk, _, hi⟩ := h.token ht hn
  exact ⟨t, d, hw, hk, hi⟩

theorem Inside.text {mode : Mode} {text rest : List Char}
    (h : Inside c mode lineStart levels (text ++ rest)) (hm : mode ≠ .destination)
    (ha : lineStart = true → Mode.atArrow (text ++ rest) = false) (hne : text ≠ [])
    (hl : mode.textLength (text ++ rest) = text.length) :
    ∃ t d, Walks c [t] d ∧ t.kind = .text ∧ t.text = text ∧ Inside d mode false levels rest :=
  h.token (Mode.tokenAt_text mode lineStart text rest hm ha hne hl) (by decide)

theorem textLength_append_bracket {mode : Mode} {cs tail : List Char} (hm : mode ≠ .base)
    (hu : mode.Unbroken cs) (hn : '\n' ∉ cs) (hnt : tail.head? ≠ some '\n')
    (hd : ∀ d, cs.getLast? = some d → mode.delimiter? (d :: tail) = none)
    (ht : (mode.delimiter? tail).isSome = true) : mode.textLength (cs ++ tail) = cs.length := by
  have hstop : mode.stopsText tail = true := by simp [Mode.stopsText, ht]
  have hl : ∀ d, cs.getLast? = some d → mode.stopsText (d :: tail) = false := by
    intro d hl
    have hdn : d ≠ '\n' := by
      rintro rfl
      exact hn (List.mem_of_getLast? hl)
    simp [Mode.stopsText, hd d hl, Mode.atLineBreak_cons, hdn, hnt]
  rw [Mode.textLength_append mode cs tail (Mode.textLength_of_unbroken mode cs hu) hl
    (fun h => absurd h hm), Mode.textLength_of_stopsText mode tail hstop, Nat.add_zero]

theorem Inside.command {text rest : List Char}
    (h : Inside c .base lineStart levels ('<' :: '<' :: text ++ '>' :: '>' :: rest))
    (hs : Sealed text) :
    ∃ first second third d, Walks c [first, second, third] d ∧ first.kind = .commandStart ∧
      second.kind = .text ∧ second.text = text ∧ third.kind = .commandEnd ∧
      Inside d .base false levels rest := by
  have hlen : Mode.command.textLength (text ++ '>' :: '>' :: rest) = text.length := by
    refine textLength_append_bracket (by decide) (Mode.unbroken_command text hs.newline hs.double)
      hs.newline (by simp) ?_ rfl
    intro d hl
    rw [Mode.delimiter?_command, if_neg]
    rintro ⟨rfl, _⟩
    exact hs.last hl
  have hopen : Inside c .base lineStart levels (['<', '<'] ++ (text ++ '>' :: '>' :: rest)) := h
  obtain ⟨first, c1, hw1, hk1, h1⟩ := hopen.delimiter .commandStart rfl rfl rfl (by decide)
  obtain ⟨second, c2, hw2, hk2, ht2, h2⟩ := h1.text (by decide) (by simp) hs.ne_nil hlen
  have hclose : Inside c2 .command false levels (['>', '>'] ++ rest) := h2
  obtain ⟨third, c3, hw3, hk3, h3⟩ :=
    hclose.delimiter .commandEnd rfl rfl rfl (by decide)
  exact ⟨first, second, third, c3, hw1.trans (hw2.trans hw3), hk1, hk2, ht2, hk3, h3⟩

structure OptionText (cs : List Char) : Prop where
  ne_nil : cs ≠ []
  newline : '\n' ∉ cs
  bar : '|' ∉ cs
  double : Text.hasDouble ']' cs = false

theorem OptionText.textLength {cs tail : List Char} (h : OptionText cs)
    (hn : tail.head? ≠ some '\n') (hl : tail.head? = some ']' → cs.getLast? ≠ some ']')
    (ht : (Mode.option.delimiter? tail).isSome = true) :
    Mode.option.textLength (cs ++ tail) = cs.length := by
  refine textLength_append_bracket (by decide)
    (Mode.unbroken_option cs h.newline h.bar h.double) h.newline hn (fun d hd => ?_) ht
  have hbar : d ≠ '|' := by
    rintro rfl
    exact h.bar (List.mem_of_getLast? hd)
  rw [Mode.delimiter?_option, if_neg, if_neg hbar]
  rintro ⟨rfl, hclose⟩
  exact hl hclose hd

theorem Inside.link {text rest : List Char}
    (h : Inside c .base lineStart levels ('[' :: '[' :: text ++ ']' :: ']' :: rest))
    (ho : OptionText text) (hlast : text.getLast? ≠ some ']') :
    ∃ first second third d, Walks c [first, second, third] d ∧ first.kind = .optionStart ∧
      second.kind = .text ∧ second.text = text ∧ third.kind = .optionEnd ∧
      Inside d .base false levels rest := by
  have hlen : Mode.option.textLength (text ++ ']' :: ']' :: rest) = text.length :=
    ho.textLength (by simp) (fun _ => hlast) rfl
  have hopen : Inside c .base lineStart levels (['[', '['] ++ (text ++ ']' :: ']' :: rest)) := h
  obtain ⟨first, c1, hw1, hk1, h1⟩ := hopen.delimiter .optionStart rfl rfl rfl (by decide)
  obtain ⟨second, c2, hw2, hk2, ht2, h2⟩ := h1.text (by decide) (by simp) ho.ne_nil hlen
  have hclose : Inside c2 .option false levels ([']', ']'] ++ rest) := h2
  obtain ⟨third, c3, hw3, hk3, h3⟩ := hclose.delimiter .optionEnd rfl rfl rfl (by decide)
  exact ⟨first, second, third, c3, hw1.trans (hw2.trans hw3), hk1, hk2, ht2, hk3, h3⟩

theorem Inside.option {text target rest : List Char}
    (h : Inside c .base lineStart levels
      ('[' :: '[' :: text ++ '|' :: target ++ ']' :: ']' :: rest))
    (ho : OptionText text) (hne : target ≠ []) (ht : target.all Mode.isDestinationChar = true) :
    ∃ first second third fourth fifth d, Walks c [first, second, third, fourth, fifth] d ∧
      first.kind = .optionStart ∧ second.kind = .text ∧ second.text = text ∧
      third.kind = .optionSep ∧ fourth.kind = .identifier ∧ fourth.text = target ∧
      fifth.kind = .optionEnd ∧ Inside d .base false levels rest := by
  have hlen : Mode.option.textLength (text ++ '|' :: (target ++ ']' :: ']' :: rest)) =
      text.length :=
    ho.textLength (by simp) (by simp) rfl
  have hopen : Inside c .base lineStart levels
      (['[', '['] ++ (text ++ '|' :: (target ++ ']' :: ']' :: rest))) := by
    simpa using h
  obtain ⟨first, c1, hw1, hk1, h1⟩ := hopen.delimiter .optionStart rfl rfl rfl (by decide)
  obtain ⟨second, c2, hw2, hk2, ht2, h2⟩ := h1.text (by decide) (by simp) ho.ne_nil hlen
  have hsep : Inside c2 .option false levels (['|'] ++ (target ++ ']' :: ']' :: rest)) := h2
  obtain ⟨third, c3, hw3, hk3, h3⟩ := hsep.delimiter .optionSep rfl rfl rfl (by decide)
  obtain ⟨fourth, c4, hw4, hk4, ht4, h4⟩ :=
    h3.token (Mode.tokenAt_identifier false target (']' :: rest) hne ht) (by decide)
  have hclose : Inside c4 .destination false levels ([']', ']'] ++ rest) := h4
  obtain ⟨fifth, c5, hw5, hk5, h5⟩ := hclose.delimiter .optionEnd rfl rfl rfl (by decide)
  exact ⟨first, second, third, fourth, fifth, c5,
    hw1.trans (hw2.trans (hw3.trans (hw4.trans hw5))), hk1, hk2, ht2, hk3, hk4, ht4, hk5, h5⟩

theorem Inside.arrow {rest : List Char} (h : Inside c .base true levels ('-' :: '>' :: rest)) :
    ∃ t d, Walks c [t] d ∧ t.kind = .shortcutMarker ∧ Inside d .base false levels rest := by
  have ht : Mode.base.tokenAt true (['-', '>'] ++ rest) = some (.shortcutMarker, 2) := by
    simp [Mode.tokenAt, Mode.atArrow]
  have harrow : Inside c .base true levels (['-', '>'] ++ rest) := h
  obtain ⟨t, d, hw, hk, _, hd⟩ := harrow.token ht (by decide)
  exact ⟨t, d, hw, hk, hd⟩

end

end Cursor

end Dialogue
