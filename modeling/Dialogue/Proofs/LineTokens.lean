import Dialogue.Proofs.ContentLines

/-!
# The tokens of a line

No token but a line break reaches over the end of a line, so the tokens of a line are
those of its text alone (`Lexes`). The tokens of a body are found line by line: it has
tokens with all brackets closed if and only if each of its content lines has, and
then they are those of the lines, with a line break and the markers of the levels
between two of them (`Spelled`).
-/

namespace Dialogue

theorem lineAt_cons {c : Char} {cs : List Char} (h : atLineBreak (c :: cs) = false) :
    lineAt (c :: cs) = c :: lineAt cs := by
  refine lineAt.eq_3 c cs ?_ ?_
  · rintro rfl
    cases h
  · rintro cs rfl rfl
    cases h

theorem lineAt_of_atLineBreak {cs : List Char} (h : atLineBreak cs = true) : lineAt cs = [] := by
  unfold atLineBreak at h
  split at h
  · rfl
  · rfl
  · cases h

theorem lineAt_eq_nil_iff {cs : List Char} : lineAt cs = [] ↔ cs = [] ∨ atLineBreak cs = true := by
  cases cs with
  | nil => simp [lineAt]
  | cons c cs =>
    cases h : atLineBreak (c :: cs) with
    | true => simp [lineAt_of_atLineBreak h]
    | false => simp [lineAt_cons h]

theorem head?_lineAt (cs : List Char) {d : Char} (hn : d ≠ '\n') (hr : d ≠ '\r') :
    (lineAt cs).head? = some d ↔ cs.head? = some d := by
  cases cs with
  | nil => rfl
  | cons c cs =>
    cases h : atLineBreak (c :: cs) with
    | false => simp [lineAt_cons h]
    | true =>
      have hc : c ≠ d := by
        rintro rfl
        simp [Mode.atLineBreak_cons, hn, hr] at h
      simp [lineAt_of_atLineBreak h, hc]

theorem newline_not_mem_lineAt (cs : List Char) : '\n' ∉ lineAt cs := by
  fun_induction lineAt cs with
  | case1 => simp
  | case2 => simp
  | case3 c cs hn _ ih =>
    have hc : '\n' ≠ c := fun heq => hn heq.symm
    simp [hc, ih]
  | case4 => simp

theorem atLineBreak_lineAt (cs : List Char) : atLineBreak (lineAt cs) = false := by
  cases h : lineAt cs with
  | nil => rfl
  | cons c rest => exact Mode.atLineBreak_of_not_mem (h ▸ newline_not_mem_lineAt cs)

theorem takeWhile_lineAt {test : Char → Bool} (hn : test '\n' = false) (hr : test '\r' = false)
    (cs : List Char) : (lineAt cs).takeWhile test = cs.takeWhile test := by
  fun_induction lineAt cs with
  | case1 => rw [List.takeWhile_nil, List.takeWhile_cons_of_neg (by simp [hn])]
  | case2 => rw [List.takeWhile_nil, List.takeWhile_cons_of_neg (by simp [hr])]
  | case3 c cs _ _ ih => rw [List.takeWhile_cons, List.takeWhile_cons, ih]
  | case4 => rfl

theorem drop_lineAt {n : Nat} {cs : List Char} (h : n ≤ (lineAt cs).length) :
    (lineAt cs).drop n = lineAt (cs.drop n) := by
  induction n generalizing cs with
  | zero => rfl
  | succ n ih =>
    cases cs with
    | nil => rfl
    | cons c cs =>
      cases hb : atLineBreak (c :: cs) with
      | true =>
        rw [lineAt_of_atLineBreak hb] at h
        cases h
      | false =>
        rw [lineAt_cons hb] at h ⊢
        exact ih (Nat.le_of_succ_le_succ h)

theorem take_lineAt {n : Nat} {cs : List Char} (h : n ≤ (lineAt cs).length) :
    (lineAt cs).take n = cs.take n := by
  obtain ⟨rest, hrest⟩ := lineAt_prefix cs
  conv_rhs => rw [← hrest]
  rw [List.take_append_of_le_length h]

theorem linesBelow_drop {n : Nat} {cs : List Char} (h : n ≤ (lineAt cs).length) :
    linesBelow (cs.drop n) = linesBelow cs := by
  have hmem : '\n' ∉ cs.take n := by
    rw [← take_lineAt h]
    exact fun hn => newline_not_mem_lineAt cs (List.mem_of_mem_take hn)
  conv_rhs => rw [← List.take_append_drop n cs]
  rw [linesBelow_append hmem]

namespace Mode

theorem delimiter?_lineAt (mode : Mode) {cs : List Char} (h : atLineBreak cs = false) :
    mode.delimiter? (lineAt cs) = mode.delimiter? cs := by
  cases cs with
  | nil => rfl
  | cons c cs =>
    have hbrackets : ∀ d ∈ ['[', ']', '<', '>'], d ≠ '\n' ∧ d ≠ '\r' := by simp
    rw [lineAt_cons h]
    exact delimiter?_congr mode c fun d hd => head?_lineAt cs (hbrackets d hd).1 (hbrackets d hd).2

theorem stopsText_lineAt (mode : Mode) {cs : List Char} (h : atLineBreak cs = false) :
    mode.stopsText (lineAt cs) = mode.stopsText cs := by
  unfold stopsText
  rw [delimiter?_lineAt mode h, atLineBreak_lineAt, h]

theorem Spans.lineAt {mode : Mode} {cs : List Char} {n : Nat} (h : mode.Spans cs n) :
    mode.Spans (lineAt cs) n := by
  induction h with
  | @done cs stops =>
    rcases stops with rfl | stops
    · exact .done (.inl rfl)
    · cases hb : atLineBreak cs with
      | true => exact .done (.inl (lineAt_of_atLineBreak hb))
      | false => exact .done (.inr ((stopsText_lineAt mode hb).trans stops))
  | @pair d cs n prose goes line rest ih =>
    have hbreak := atLineBreak_of_goes goes
    have hgoes := (stopsText_lineAt mode hbreak).trans goes
    rw [lineAt_cons hbreak, lineAt_cons line] at hgoes ⊢
    refine .pair prose hgoes ?_ ih
    rw [← lineAt_cons line, atLineBreak_lineAt]
  | @one c cs n goes single rest ih =>
    have hbreak := atLineBreak_of_goes goes
    have hgoes := (stopsText_lineAt mode hbreak).trans goes
    rw [lineAt_cons hbreak] at hgoes ⊢
    exact .one hgoes (fun hm hc => .inl (lineAt_eq_nil_iff.2 (single hm hc))) ih

theorem textLength_lineAt (mode : Mode) (cs : List Char) :
    mode.textLength (lineAt cs) = mode.textLength cs :=
  (spans_textLength mode cs).lineAt.textLength_eq

theorem atArrow_cons (c : Char) (cs : List Char) :
    atArrow (c :: cs) = (c == '-' && cs.head? == some '>') := by
  unfold atArrow
  cases cs <;> split <;> simp_all

theorem atArrow_lineAt {cs : List Char} (h : atLineBreak cs = false) :
    atArrow (lineAt cs) = atArrow cs := by
  cases cs with
  | nil => rfl
  | cons c cs =>
    have hhead := head?_lineAt cs (d := '>') (by decide) (by decide)
    rw [lineAt_cons h, atArrow_cons, atArrow_cons, Bool.eq_iff_iff]
    simp [hhead]

theorem destinationLength_lineAt (cs : List Char) :
    destinationLength (lineAt cs) = destinationLength cs := by
  have hindent : ∀ ds, indentLength (lineAt ds) = indentLength ds := fun ds => by
    rw [indentLength, takeWhile_lineAt (by decide) (by decide)]
    rfl
  have hlead := drop_lineAt (indentLength_le (lineAt cs))
  have hword := drop_lineAt (word_le (lineAt cs))
  unfold destinationLength
  simp only
  rw [hword, hlead, takeWhile_lineAt (by decide) (by decide), hindent, hindent]

/-- The token that begins on a line, line breaks apart, is that of the line alone. -/
theorem tokenAt_lineAt (mode : Mode) (lineStart : Bool) {cs : List Char}
    (h : atLineBreak cs = false) :
    mode.tokenAt lineStart (lineAt cs) = mode.tokenAt lineStart cs := by
  unfold tokenAt
  rw [atArrow_lineAt h, delimiter?_lineAt mode h, atLineBreak_lineAt, h]
  simp only [textLength_lineAt, destinationLength_lineAt, Bool.false_eq_true, if_false]

end Mode

theorem TokenKind.isFinal_of_mem_ofLine {kind : TokenKind} (h : kind ∈ ofLine) :
    kind.isFinal = false := by
  revert kind
  decide

def Token.piece (t : Token) : TokenKind × List Char := (t.kind, t.text)

/-- The pieces that the text of a line is cut into. All brackets are closed at its end. -/
inductive Lexes : Mode → Bool → List Char → List (TokenKind × List Char) → Prop
  | done (lineStart : Bool) : Lexes .base lineStart [] []
  | piece {mode : Mode} {lineStart : Bool} {cs : List Char} {kind : TokenKind} {n : Nat}
      {pieces : List (TokenKind × List Char)} (found : mode.tokenAt lineStart cs = some (kind, n))
      (inner : kind ≠ .newline) (rest : Lexes (mode.after kind) false (cs.drop n) pieces) :
      Lexes mode lineStart cs ((kind, cs.take n) :: pieces)

theorem Lexes.kinds {mode : Mode} {lineStart : Bool} {cs : List Char}
    {pieces : List (TokenKind × List Char)} (h : Lexes mode lineStart cs pieces) :
    ∀ piece ∈ pieces, piece.1 ∈ TokenKind.ofLine := by
  induction h with
  | done => nofun
  | piece found inner _ ih =>
    exact List.forall_mem_cons.2 ⟨TokenKind.mem_ofLine (Mode.tokenAt_kind found) inner, ih⟩

structure ContentLine.Spells (line : ContentLine) (inner : List Token) : Prop where
  lexes : Lexes .base true line.content (inner.map Token.piece)
  number : ∀ t ∈ inner, t.position.line = line.number

theorem ContentLine.Spells.kinds {line : ContentLine} {inner : List Token}
    (h : line.Spells inner) : ∀ t ∈ inner, t.kind ∈ TokenKind.ofLine :=
  fun _ ht => h.lexes.kinds _ (List.mem_map_of_mem ht)

theorem Lexes.modeAfter_eq {mode : Mode} {lineStart : Bool} {cs : List Char} {inner : List Token}
    (h : Lexes mode lineStart cs (inner.map Token.piece)) : modeAfter mode inner = .base := by
  generalize hpieces : inner.map Token.piece = pieces at h
  induction h generalizing inner with
  | done =>
    rw [List.map_eq_nil_iff.1 hpieces]
    rfl
  | piece _ _ _ ih =>
    obtain ⟨t, rest, rfl, hpiece, hrest⟩ := List.map_eq_cons_iff.1 hpieces
    obtain ⟨rfl, -⟩ := Prod.mk.inj hpiece
    exact ih hrest

def ContentLine.Lexed (line : ContentLine) : Prop := ∃ pieces, Lexes .base true line.content pieces

/-- The tokens of the content lines below a line with these levels, each line with the line break
and the markers in front of it. -/
inductive Spelled : List Nat → List ContentLine → List Token → Prop
  | nil (stack : List Nat) : Spelled stack [] []
  | next {stack : List Nat} {line : ContentLine} {below : List ContentLine} {newline : Token}
      {markers inner ts : List Token} (breaks : newline.kind = .newline)
      (levels : markers.map Token.kind = markersOf stack line.width) (here : line.Spells inner)
      (rest : Spelled (settle stack line.width) below ts) :
      Spelled stack (line :: below) (newline :: (markers ++ (inner ++ ts)))

/-- The tokens at the end of a body: as many levels are closed, and then it is over. -/
inductive EndsBody (depth : Nat) : List Token → Prop
  | mk {markers : List Token} {last : Token}
      (levels : markers.map Token.kind = .replicate depth .dedent)
      (ends : last.kind = .endOfInput) : EndsBody depth (markers ++ [last])

def depthBehind (stack : List Nat) (lines : List ContentLine) : Nat :=
  ((lines.map ContentLine.width).foldl settle stack).length - 1

namespace Cursor

/-! ### To the end of a line -/

/-- The cursor stands inside the body with these levels open, and owes nothing. -/
structure Ready (c : Cursor) (stack : List Nat) : Prop where
  started : c.started = true
  owed : c.owed = []
  stack : c.stack = stack
  descends : c.Descends

structure AtEnd (c : Cursor) (number : Nat) (below : List ContentLine) : Prop where
  mode : c.mode = .base
  line : lineAt c.rest = []
  number : c.position.line = number
  below : contentFrom (c.position.line + 1) (linesBelow c.rest) = below

structure AtLine (c : Cursor) (line : ContentLine) (below : List ContentLine) : Prop where
  mode : c.mode = .base
  lineStart : c.lineStart = true
  content : lineAt c.rest = line.content
  number : c.position.line = line.number
  below : contentFrom (c.position.line + 1) (linesBelow c.rest) = below

variable {c : Cursor} {stack : List Nat} {ts : List Token}

theorem step_line {kind : TokenKind} {n : Nat} (h : c.Ready stack)
    (hfound : c.mode.tokenAt c.lineStart (lineAt c.rest) = some (kind, n))
    (hk : kind ≠ .newline) :
    c.step = (c.cut kind n, (c.skip n).enter kind) ∧ n ≤ (lineAt c.rest).length ∧
      atLineBreak c.rest = false := by
  have hpos := Mode.tokenAt_pos _ _ _ _ _ hfound
  have hle := Mode.tokenAt_le hfound
  have hne : lineAt c.rest ≠ [] := by
    intro hnil
    rw [hnil, List.length_nil] at hle
    omega
  have hrest : c.rest ≠ [] := fun hnil => hne (by rw [hnil]; rfl)
  have hbreak : atLineBreak c.rest = false := by
    cases hb : atLineBreak c.rest with
    | true => exact absurd (lineAt_of_atLineBreak hb) hne
    | false => rfl
  rw [Mode.tokenAt_lineAt _ _ hbreak] at hfound
  refine ⟨?_, hle, hbreak⟩
  rw [step_of_started h.started h.owed, if_neg hrest, stepContent, hfound]
  simp only [if_neg hk]

theorem Ready.enter (h : c.Ready stack) (kind : TokenKind) (n : Nat) :
    ((c.skip n).enter kind).Ready stack := ⟨h.started, h.owed, h.stack, h.descends⟩

theorem line_skip {n : Nat} (h : n ≤ (lineAt c.rest).length) :
    (c.skip n).position.line = c.position.line := by
  refine c.position.advance_line_of_not_mem fun hmem => newline_not_mem_lineAt c.rest ?_
  rw [← take_lineAt h] at hmem
  exact List.mem_of_mem_take hmem

/-- The tokens of a line are those of its text. -/
theorem walks_line {mode : Mode} {lineStart : Bool} {cs : List Char}
    {pieces : List (TokenKind × List Char)} (hlex : Lexes mode lineStart cs pieces)
    (h : c.Ready stack) (hm : c.mode = mode) (hl : c.lineStart = lineStart)
    (hcs : lineAt c.rest = cs) :
    ∃ inner d, Walks c inner d ∧ inner.map Token.piece = pieces ∧
      (∀ t ∈ inner, t.position.line = c.position.line) ∧ d.Ready stack ∧
      d.AtEnd c.position.line (contentFrom (c.position.line + 1) (linesBelow c.rest)) := by
  induction hlex generalizing c with
  | done => exact ⟨[], c, .nil c, rfl, nofun, h, hm, hcs, rfl, rfl⟩
  | @piece mode lineStart cs kind n pieces found inner _ ih =>
    subst hm hl hcs
    obtain ⟨hstep, hle, hbreak⟩ := step_line h found inner
    have hstart : ((c.skip n).enter kind).lineStart = false := by simp [Cursor.enter, inner]
    obtain ⟨rest, d, hwalk, hpieces, hnumber, hend, hd⟩ :=
      ih (h.enter kind n) rfl hstart (drop_lineAt hle).symm
    have hposition : ((c.skip n).enter kind).position.line = c.position.line := line_skip hle
    have hbelow : linesBelow ((c.skip n).enter kind).rest = linesBelow c.rest :=
      linesBelow_drop hle
    rw [hposition, hbelow] at hd
    rw [hposition] at hnumber
    have hfinal := TokenKind.isFinal_of_mem_ofLine
      (TokenKind.mem_ofLine (Mode.tokenAt_kind found) inner)
    refine ⟨c.cut kind n :: rest, d, .cons hstep hfinal hwalk, ?_, ?_, hend, hd⟩
    · rw [List.map_cons, hpieces, take_lineAt hle]
      rfl
    · exact List.forall_mem_cons.2 ⟨rfl, hnumber⟩

theorem modeAfter_closing (mode : Mode) (n : Nat) (p : Position) :
    modeAfter mode (closing n p) = mode := by
  induction n with
  | zero => rfl
  | succ n ih => exact ih

theorem Ready.exists_token (h : c.Ready stack) (ht : c.tokens? = .ok ts)
    (hline : lineAt c.rest ≠ []) :
    ∃ kind n rest, c.mode.tokenAt c.lineStart (lineAt c.rest) = some (kind, n) ∧
      kind ≠ .newline ∧ n ≤ (lineAt c.rest).length ∧
      c.step = (c.cut kind n, (c.skip n).enter kind) ∧ ts = c.cut kind n :: rest ∧
      ((c.skip n).enter kind).tokens? = .ok rest ∧
      ((c.skip n).enter kind).rest.length < c.rest.length := by
  have hr : c.rest ≠ [] := fun hnil => hline (lineAt_eq_nil_iff.2 (Or.inl hnil))
  have hb : atLineBreak c.rest = false :=
    Bool.eq_false_iff.2 fun hbreak => hline (lineAt_of_atLineBreak hbreak)
  have hstep : c.step = c.stepContent := by rw [step_of_started h.started h.owed, if_neg hr]
  have hvalid : c.stepContent.1.kind ≠ .invalid := by
    intro hk
    rw [tokens?, hstep, dif_neg (by rw [hk]; decide), if_pos hk] at ht
    cases ht
  cases htoken : c.mode.tokenAt c.lineStart c.rest with
  | none => simp [stepContent, htoken, cut] at hvalid
  | some found =>
    obtain ⟨kind, n⟩ := found
    have hk : kind ≠ .newline := by
      rintro rfl
      rw [(Mode.tokenAt_newline htoken).1] at hb
      cases hb
    rw [← Mode.tokenAt_lineAt _ _ hb] at htoken
    obtain ⟨hstep', hle, -⟩ := step_line h htoken hk
    have hfinal : c.step.1.kind.isFinal = false := by
      rw [hstep]
      exact stepContent_isFinal hvalid
    rw [tokens?_of_not_isFinal c hfinal, hstep'] at ht
    obtain ⟨rest, hrest, rfl⟩ := exists_of_map_eq_ok ht
    have hshort : (c.rest.drop n).length < c.rest.length := by
      have hpos := Mode.tokenAt_pos _ _ _ _ _ htoken
      have hlength := List.length_pos_iff.2 hr
      rw [List.length_drop]
      omega
    exact ⟨kind, n, rest, htoken, hk, hle, hstep', rfl, hrest, hshort⟩

theorem Ready.over_or_mode (h : c.Ready stack) (ht : c.tokens? = .ok ts)
    (hline : lineAt c.rest = []) : c.rest = [] ∨ c.mode = .base := by
  by_cases hr : c.rest = []
  · exact Or.inl hr
  · have hstep : c.step = c.stepContent := by rw [step_of_started h.started h.owed, if_neg hr]
    exact Or.inr (mode_of_lineBreak hstep ((lineAt_eq_nil_iff.1 hline).resolve_left hr) ht)

theorem lexes_of_tokens? (h : c.Ready stack) (ht : c.tokens? = .ok ts)
    (hmode : modeAfter c.mode ts = .base) :
    ∃ pieces, Lexes c.mode c.lineStart (lineAt c.rest) pieces := by
  induction hn : c.rest.length using Nat.strong_induction_on generalizing c ts with
  | _ n ih =>
    subst hn
    by_cases hline : lineAt c.rest = []
    · have hbase : c.mode = .base := by
        rcases h.over_or_mode ht hline with hr | hbase
        · rw [tokens?_of_rest_nil h.started hr h.owed] at ht
          cases ht
          rw [modeAfter_append, modeAfter_closing] at hmode
          exact hmode
        · exact hbase
      rw [hline, hbase]
      exact ⟨[], .done _⟩
    · obtain ⟨kind, n, rest, htoken, hk, hle, -, rfl, hrest, hshort⟩ := h.exists_token ht hline
      obtain ⟨pieces, hpieces⟩ := ih _ hshort (h.enter kind n) hrest hmode rfl
      have hstart : ((c.skip n).enter kind).lineStart = false := by simp [Cursor.enter, hk]
      have hbehind : lineAt ((c.skip n).enter kind).rest = (lineAt c.rest).drop n :=
        (drop_lineAt hle).symm
      rw [hstart, hbehind] at hpieces
      exact ⟨_, .piece htoken hk hpieces⟩

theorem walks_markers {kinds : List TokenKind} (ho : c.owed = kinds)
    (hk : ∀ kind ∈ kinds, kind.isFinal = false) :
    Walks c (kinds.map c.marker) { c with owed := [] } := by
  induction kinds generalizing c with
  | nil =>
    obtain ⟨⟩ := c
    obtain rfl := ho
    exact .nil _
  | cons kind kinds ih =>
    refine .cons (step_of_owed ho) (hk kind List.mem_cons_self) ?_
    exact ih rfl fun k hmem => hk k (List.mem_cons_of_mem kind hmem)

def broken (c : Cursor) : Cursor := (c.skip (blankLength c.rest)).enter .newline

theorem AtEnd.step_broken {number : Nat} {below : List ContentLine} (h : c.Ready stack)
    (he : c.AtEnd number below) (hne : c.rest ≠ []) :
    c.step = (c.cut .newline (blankLength c.rest), c.broken.measure) ∧
      contentAhead c.broken.position c.broken.rest = below := by
  have hbreak := (lineAt_eq_nil_iff.1 he.line).resolve_left hne
  constructor
  · rw [step_of_started h.started h.owed, if_neg hne, stepContent_lineBreak he.mode hbreak]
    rfl
  · rw [← he.below, contentFrom_lineBreak c.position hbreak]
    rfl

theorem content_broken (hr : c.broken.rest ≠ []) :
    contentAhead c.broken.position c.broken.rest =
      ⟨c.broken.position.line, c.broken.position.column - 1, lineAt c.broken.rest⟩ ::
        contentFrom (c.broken.position.line + 1) (linesBelow c.broken.rest) :=
  content_of_blankLength c.broken.position (blankLength_drop c.rest) hr

theorem endsBody_closing (hs : c.stack = stack) (p : Position) :
    EndsBody (stack.length - 1) (closing c.levels.length p ++ [c.marker .endOfInput]) := by
  refine .mk ?_ rfl
  rw [closing, List.map_replicate, ← hs, Cursor.stack, List.length_append]
  rfl

theorem Ready.last (h : c.Ready stack) {number : Nat} (he : c.AtEnd number []) :
    ∃ breaks z, c.tokens? = .ok (breaks ++ z) ∧ EndsBody (stack.length - 1) z ∧
      (breaks = [] ∨ ∃ t : Token, breaks = [t] ∧ t.kind = .newline) := by
  by_cases hr : c.rest = []
  · exact ⟨[], _, tokens?_of_rest_nil h.started hr h.owed, endsBody_closing h.stack _, Or.inl rfl⟩
  · obtain ⟨hstep, hcontent⟩ := he.step_broken h hr
    have hover : c.broken.rest = [] := by
      by_contra hmore
      rw [content_broken hmore] at hcontent
      cases hcontent
    have hmeasure : c.broken.measure = c.broken := if_pos hover
    rw [hmeasure] at hstep
    have hwalk : Walks c [c.cut .newline (blankLength c.rest)] c.broken :=
      .cons hstep rfl (.nil _)
    rw [hwalk.tokens?, tokens?_of_rest_nil (c := c.broken) h.started hover h.owed]
    exact ⟨_, _, rfl, endsBody_closing (c := c.broken) h.stack _, Or.inr ⟨_, rfl, rfl⟩⟩

theorem Ready.next (h : c.Ready stack) {number : Nat} {line : ContentLine}
    {below : List ContentLine} (he : c.AtEnd number (line :: below)) :
    ∃ newline markers d, Walks c (newline :: markers) d ∧ newline.kind = .newline ∧
      markers.map Token.kind = markersOf stack line.width ∧ d.Ready (settle stack line.width) ∧
      d.AtLine line below := by
  have hne : c.rest ≠ [] := by
    intro hnil
    have hbelow := he.below
    rw [hnil] at hbelow
    cases hbelow
  obtain ⟨hstep, hcontent⟩ := he.step_broken h hne
  have hmore : c.broken.rest ≠ [] := by
    intro hnil
    rw [hnil] at hcontent
    cases hcontent
  obtain ⟨rfl, rfl⟩ := List.cons.inj ((content_broken hmore).symm.trans hcontent)
  obtain ⟨hlevels, howed, hdescends⟩ := measure_eq (c := c.broken) h.descends hmore
  have hstack : c.broken.stack = stack := h.stack
  rw [hstack] at hlevels howed
  obtain ⟨levels, owed, hframe⟩ := measure_frame c.broken
  rw [hframe] at hstep hlevels howed hdescends
  have hmarkers := walks_markers (c := { c.broken with levels := levels, owed := owed }) rfl
    fun kind hk => isFinal_of_mem_markersOf (howed ▸ hk)
  refine ⟨_, _, _, .cons hstep rfl hmarkers, rfl, ?_, ⟨h.started, rfl, hlevels, hdescends⟩, ?_⟩
  · rw [List.map_map]
    exact (List.map_id owed).trans howed
  · refine ⟨?_, rfl, rfl, rfl, rfl⟩
    show c.mode.after .newline = .base
    rw [he.mode]
    rfl

/-! ### Line by line -/

theorem modeAfter_of_not_ofLine (mode : Mode) {ts : List Token}
    (h : ∀ t ∈ ts, t.kind ∉ TokenKind.ofLine) : modeAfter mode ts = mode := by
  induction ts with
  | nil => rfl
  | cons t ts ih =>
    have hkind : mode.after t.kind = mode := by
      have hk := h t List.mem_cons_self
      revert hk
      cases t.kind <;> first | exact fun _ => rfl | exact fun hk => absurd (by decide) hk
    show modeAfter (mode.after t.kind) ts = mode
    rw [hkind]
    exact ih fun u hu => h u (List.mem_cons_of_mem t hu)

variable {line : ContentLine} {below : List ContentLine}

theorem Ready.walks_line (h : c.Ready stack) (hl : c.AtLine line below) (hlexed : line.Lexed) :
    ∃ inner d, Walks c inner d ∧ line.Spells inner ∧ d.Ready stack ∧
      d.AtEnd line.number below := by
  obtain ⟨pieces, hpieces⟩ := hlexed
  obtain ⟨inner, d, hwalk, rfl, hnumber, hready, hend⟩ :=
    Cursor.walks_line hpieces h hl.mode hl.lineStart hl.content
  rw [hl.number] at hnumber hend
  rw [← hl.number, hl.below, hl.number] at hend
  exact ⟨inner, d, hwalk, ⟨hpieces, hnumber⟩, hready, hend⟩

/-- Lines that are cut into pieces are walked along one after another. -/
theorem Ready.walks (h : c.Ready stack) (hl : c.AtLine line below)
    (hlexed : ∀ l ∈ line :: below, l.Lexed) :
    ∃ inner rest d number, Walks c (inner ++ rest) d ∧ line.Spells inner ∧
      Spelled stack below rest ∧
      d.Ready ((below.map ContentLine.width).foldl settle stack) ∧ d.AtEnd number [] := by
  induction below generalizing c stack line with
  | nil =>
    obtain ⟨inner, d, hwalk, hspells, hready, hend⟩ :=
      h.walks_line hl (hlexed line List.mem_cons_self)
    refine ⟨inner, [], d, _, ?_, hspells, .nil stack, hready, hend⟩
    rw [List.append_nil]
    exact hwalk
  | cons next below ih =>
    obtain ⟨inner, d, hwalk, hspells, hready, hend⟩ :=
      h.walks_line hl (hlexed line List.mem_cons_self)
    obtain ⟨newline, markers, f, hwalk', hbreak, hlevels, hready', hnext⟩ := hready.next hend
    obtain ⟨inner', rest, last, number, hlast, hspells', hspelled, hover⟩ :=
      ih hready' hnext fun l hmem => hlexed l (List.mem_cons_of_mem line hmem)
    refine ⟨inner, newline :: (markers ++ (inner' ++ rest)), last, number, ?_, hspells,
      .next hbreak hlevels hspells' hspelled, hover⟩
    exact hwalk.trans (hwalk'.trans hlast)

theorem Ready.lexed (h : c.Ready stack) (hl : c.AtLine line below) (ht : c.tokens? = .ok ts)
    (hmode : modeAfter .base ts = .base) : ∀ l ∈ line :: below, l.Lexed := by
  have hline : ∀ {c : Cursor} {stack : List Nat} {line : ContentLine} {below : List ContentLine}
      {ts : List Token}, c.Ready stack → c.AtLine line below → c.tokens? = .ok ts →
      modeAfter .base ts = .base → line.Lexed := by
    intro c stack line below ts h hl ht hmode
    have hlexes := lexes_of_tokens? h ht (by rw [hl.mode]; exact hmode)
    rw [hl.mode, hl.lineStart, hl.content] at hlexes
    exact hlexes
  have hfirst := hline h hl ht hmode
  refine List.forall_mem_cons.2 ⟨hfirst, ?_⟩
  induction below generalizing c stack line ts with
  | nil => nofun
  | cons next below ih =>
    obtain ⟨inner, d, hwalk, hspells, hready, hend⟩ := h.walks_line hl hfirst
    obtain ⟨newline, markers, f, hwalk', hbreak, hlevels, hready', hnext⟩ := hready.next hend
    rw [(hwalk.trans hwalk').tokens?] at ht
    obtain ⟨behind, hbehind, rfl⟩ := exists_of_map_eq_ok ht
    have hbase : modeAfter .base behind = .base := by
      rw [List.append_assoc, modeAfter_append, hspells.lexes.modeAfter_eq, modeAfter_append,
        modeAfter_of_not_ofLine _ fun t => not_mem_ofLine_of_break hbreak hlevels] at hmode
      exact hmode
    have hfound := hline hready' hnext hbehind hbase
    exact List.forall_mem_cons.2 ⟨hfound, ih hready' hnext hbehind hbase hfound⟩

theorem ready_opened {body : List Char} (hlines : contentLines body = line :: below) :
    (opened body).Ready [line.width] ∧ (opened body).AtLine line below := by
  rw [contentLines_eq, contentAhead_blank body .start (by decide)] at hlines
  have hne : (opened body).rest ≠ [] := by
    intro hnil
    have hnone : contentAhead (opened body).position (opened body).rest = [] := by
      rw [hnil]
      rfl
    cases hnone.symm.trans hlines
  have hcontent := content_of_blankLength (opened body).position (blankLength_drop body) hne
  obtain ⟨rfl, rfl⟩ := List.cons.inj (hcontent.symm.trans hlines)
  exact ⟨⟨rfl, rfl, rfl, List.pairwise_singleton _ _⟩, ⟨rfl, rfl, rfl, rfl, rfl⟩⟩

theorem rest_opened {body : List Char} (h : contentLines body = []) : (opened body).rest = [] := by
  rw [contentLines_eq, contentAhead_blank body .start (by decide)] at h
  by_contra hne
  have hcontent := content_of_blankLength (opened body).position (blankLength_drop body) hne
  cases hcontent.symm.trans h

end Cursor

theorem EndsBody.breaks {depth : Nat} {z : List Token} (h : EndsBody depth z) : Breaks z := by
  cases h with
  | @mk markers last levels ends =>
    cases markers with
    | nil => exact .last ends
    | cons marker markers =>
      have hmem : marker.kind ∈ List.replicate depth TokenKind.dedent := by
        rw [← levels]
        exact List.mem_cons_self
      exact .dedent (List.eq_of_mem_replicate hmem)

theorem Assembly.read_blank {a : Assembly} {e : BodyEnd} {x z : List Token} {t : Token}
    {found : List Statement} (hz : Breaks z) (hx : ∀ t ∈ x, t.kind ≠ .endOfInput)
    (ht : t.kind = .newline) :
    a.read e (x ++ t :: z) = .ok found ↔ a.read e (x ++ z) = .ok found := by
  have hbreaks : Breaks (t :: z) := .newline ht hz.head_ne_indent
  have hsame : ∀ {b : Assembly}, Reads x a b → a.read e (x ++ t :: z) = a.read e (x ++ z) := by
    intro b hb
    rw [hb.read_self hbreaks e, hb.read_self hz e, read_newline e z b ht]
  constructor
  · intro h
    obtain ⟨b, hb⟩ := exists_reads hbreaks hx h
    rw [← hsame hb, h]
  · intro h
    obtain ⟨b, hb⟩ := exists_reads hz hx h
    rw [hsame hb, h]

/-- The tokens of a body with these content lines, the blank lines around them apart. -/
inductive SpellsBody (first : ContentLine) (below : List ContentLine) : List Token → Prop
  | mk {inner rest z : List Token} (here : first.Spells inner)
      (lower : Spelled [first.width] below rest)
      (ends : EndsBody (depthBehind [first.width] below) z) :
      SpellsBody first below (inner ++ rest ++ z)

namespace Statement
open Cursor

variable {body : List Char} {first : ContentLine} {below : List ContentLine} {ss : List Statement}

theorem lexed_of_ofBody (h : ofBody body = .ok ss) (hlines : contentLines body = first :: below) :
    ∀ line ∈ first :: below, line.Lexed := by
  obtain ⟨ts, e, ht, hread⟩ := tokens_of_ofBody h
  obtain ⟨hready, hline⟩ := ready_opened hlines
  refine hready.lexed hline ht ?_
  obtain ⟨before, last, rfl, hlast, hbefore⟩ := tokens?_eq_append_last ht
  obtain ⟨b, hb⟩ := Assembly.exists_reads (.last hlast) hbefore hread
  rw [modeAfter_append, hb.mode]
  simp [modeAfter, hlast, Mode.after]

/-- The statements of a body are read from the tokens of its content lines. -/
theorem exists_spellsBody (hlines : contentLines body = first :: below)
    (hlexed : ∀ line ∈ first :: below, line.Lexed) :
    ∃ ts, SpellsBody first below ts ∧
      (ofBody body = .ok ss → ∃ e, ({} : Assembly).read e ts = .ok ss) ∧
      ((∀ e, ({} : Assembly).read e ts = .ok ss) → ofBody body = .ok ss) := by
  obtain ⟨hready, hline⟩ := ready_opened hlines
  obtain ⟨inner, rest, d, number, hwalk, hspells, hspelled, hover, hend⟩ :=
    hready.walks hline hlexed
  obtain ⟨breaks, z, hz, hends, hbreaks⟩ := hover.last hend
  have htokens : (opened body).tokens? = .ok (inner ++ rest ++ (breaks ++ z)) := by
    rw [hwalk.tokens?, hz]
    rfl
  have hread : ∀ e, ({} : Assembly).read e (inner ++ rest ++ (breaks ++ z)) = .ok ss ↔
      ({} : Assembly).read e (inner ++ rest ++ z) = .ok ss := by
    intro e
    rcases hbreaks with rfl | ⟨t, rfl, hk⟩
    · exact Iff.rfl
    · exact Assembly.read_blank hends.breaks hwalk.kind_ne_endOfInput hk
  refine ⟨inner ++ rest ++ z, .mk hspells hspelled hends, fun h => ?_, fun h => ?_⟩
  · obtain ⟨ts, e, ht, hfound⟩ := tokens_of_ofBody h
    rw [htokens] at ht
    cases ht
    exact ⟨e, (hread e).1 hfound⟩
  · exact ofBody_of_tokens htokens fun e => (hread e).2 (h e)

theorem ofBody_of_contentLines_nil (h : contentLines body = []) : ofBody body = .ok [] := by
  refine ofBody_of_tokens (tokens?_of_rest_nil rfl (rest_opened h) rfl) fun e => ?_
  have hlast : ((opened body).marker .endOfInput).kind = .endOfInput := rfl
  show ({} : Assembly).read e [(opened body).marker .endOfInput] = .ok []
  rw [Assembly.read, if_pos hlast]
  rfl

end Statement

end Dialogue
