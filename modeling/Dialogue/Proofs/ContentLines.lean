import Dialogue.Proofs.Levels
import Dialogue.Proofs.Positions

/-!
# Content lines

A body is a list of lines, and those that hold more than indentation are its content
lines. Each of them opens a level, or closes some, by its width alone (`settle`). The
tokens of a body are the tokens of its content lines one after another, with a line
break and the markers of these levels in between (`laid_tokenize`).
-/

namespace Dialogue

/-- The line that goes on here, up to its line break. -/
def lineAt : List Char → List Char
  | '\n' :: _ => []
  | '\r' :: '\n' :: _ => []
  | c :: cs => c :: lineAt cs
  | [] => []

def linesBelow : List Char → List (List Char)
  | [] => []
  | c :: cs => if c = '\n' then lineAt cs :: linesBelow cs else linesBelow cs

/-- A line that holds more than indentation. -/
structure ContentLine where
  number : Nat
  width : Nat
  content : List Char
deriving DecidableEq, Repr

def contentLine? (number width : Nat) (line : List Char) : Option ContentLine :=
  if line.all Text.isIndent then none
  else some ⟨number, width + indentLength line, line.drop (indentLength line)⟩

def contentFrom (number : Nat) : List (List Char) → List ContentLine
  | [] => []
  | line :: below => (contentLine? number 0 line).toList ++ contentFrom (number + 1) below

def contentLines (body : List Char) : List ContentLine :=
  contentFrom 1 (lineAt body :: linesBelow body)

/-- The content lines from a place on that has only indentation in front of it. -/
def contentAhead (p : Position) (cs : List Char) : List ContentLine :=
  (contentLine? p.line (p.column - 1) (lineAt cs)).toList ++ contentFrom (p.line + 1) (linesBelow cs)

theorem contentLines_eq (body : List Char) : contentLines body = contentAhead .start body := rfl

theorem linesBelow_append {cs ds : List Char} (h : '\n' ∉ cs) :
    linesBelow (cs ++ ds) = linesBelow ds := by
  induction cs with
  | nil => rfl
  | cons c cs ih =>
    have hc : c ≠ '\n' := fun heq => h (heq ▸ List.mem_cons_self)
    rw [List.cons_append, linesBelow, if_neg hc]
    exact ih fun hmem => h (List.mem_cons_of_mem c hmem)

theorem lineAt_prefix (cs : List Char) : lineAt cs <+: cs := by
  fun_induction lineAt cs with
  | case1 => exact List.nil_prefix
  | case2 => exact List.nil_prefix
  | case3 c cs _ _ ih => exact List.cons_prefix_cons.2 ⟨rfl, ih⟩
  | case4 => exact List.nil_prefix

theorem lt_number_of_mem {number : Nat} {below : List (List Char)} {line : ContentLine}
    (h : line ∈ contentFrom (number + 1) below) : number < line.number := by
  induction below generalizing number with
  | nil => cases h
  | cons first below ih =>
    rw [contentFrom, List.mem_append] at h
    rcases h with h | h
    · unfold contentLine? at h
      split at h
      · cases h
      · rw [Option.toList_some, List.mem_singleton] at h
        rw [h]
        exact Nat.lt_succ_self number
    · have hnext := ih h
      omega

theorem contentAhead_newline (p : Position) (cs : List Char) :
    contentAhead p ('\n' :: cs) = contentAhead (p.next '\n') cs := rfl

theorem contentAhead_indent {p : Position} {c : Char} (hp : 0 < p.column)
    (hc : Text.isIndent c = true) (cs : List Char) :
    contentAhead p (c :: cs) = contentAhead (p.next c) cs := by
  have hn : c ≠ '\n' := by
    rintro rfl
    cases hc
  have hr : c ≠ '\r' := by
    rintro rfl
    cases hc
  have hline : lineAt (c :: cs) = c :: lineAt cs :=
    lineAt.eq_3 c cs (fun h => absurd h hn) (fun _ h _ => absurd h hr)
  have hbelow : linesBelow (c :: cs) = linesBelow cs := if_neg hn
  have hnext : p.next c = ⟨p.line, p.column + 1⟩ := if_neg hn
  have hlength : indentLength (c :: lineAt cs) = indentLength (lineAt cs) + 1 := by
    simp [indentLength, hc]
  have hfirst : contentLine? p.line (p.column - 1) (c :: lineAt cs) =
      contentLine? p.line p.column (lineAt cs) := by
    unfold contentLine?
    rw [hlength, List.all_cons, hc, Bool.true_and, List.drop_succ_cons]
    have hwidth : p.column - 1 + (indentLength (lineAt cs) + 1) =
        p.column + indentLength (lineAt cs) := by omega
    rw [hwidth]
  unfold contentAhead
  rw [hline, hbelow, hnext, hfirst]
  rfl

theorem contentAhead_blank (cs : List Char) (p : Position) (hp : 0 < p.column) :
    contentAhead p cs = contentAhead (p.advance (cs.take (blankLength cs)))
      (cs.drop (blankLength cs)) := by
  fun_induction blankLength cs generalizing p with
  | case1 cs ih =>
    rw [List.take_succ_cons, List.drop_succ_cons, Position.advance_cons, contentAhead_newline]
    exact ih _ (by simp [Position.next])
  | case2 cs ih =>
    have hbreak : contentAhead p ('\r' :: '\n' :: cs) = contentAhead (p.next '\n') cs := rfl
    have hnext : (p.next '\r').next '\n' = p.next '\n' := rfl
    rw [List.take_succ_cons, List.take_succ_cons, List.drop_succ_cons, List.drop_succ_cons,
      Position.advance_cons, Position.advance_cons, hbreak, hnext]
    exact ih _ (by simp [Position.next])
  | case3 c cs _ _ hindent ih =>
    rw [List.take_succ_cons, List.drop_succ_cons, Position.advance_cons,
      contentAhead_indent hp hindent]
    refine ih _ ?_
    unfold Position.next
    split <;> simp
  | case4 => rfl
  | case5 => rfl

theorem contentFrom_lineBreak {cs : List Char} (p : Position) (h : atLineBreak cs = true) :
    contentFrom (p.line + 1) (linesBelow cs) = contentAhead (p.advance (cs.take (blankLength cs)))
      (cs.drop (blankLength cs)) := by
  have hnext : ∀ ds, contentAhead (p.next '\n') ds = contentAhead ((p.next '\n').advance
      (ds.take (blankLength ds))) (ds.drop (blankLength ds)) :=
    fun ds => contentAhead_blank ds _ (by simp [Position.next])
  unfold atLineBreak at h
  split at h
  · exact hnext _
  · exact hnext _
  · cases h

theorem content_of_blankLength {cs : List Char} (p : Position) (hb : blankLength cs = 0)
    (hne : cs ≠ []) : contentAhead p cs =
      ⟨p.line, p.column - 1, lineAt cs⟩ :: contentFrom (p.line + 1) (linesBelow cs) := by
  unfold blankLength at hb
  split at hb
  · cases hb
  · cases hb
  · rename_i c cs hn hr
    split at hb
    · cases hb
    · rename_i hindent
      have hline : lineAt (c :: cs) = c :: lineAt cs := lineAt.eq_3 c cs hn hr
      have hlength : indentLength (c :: lineAt cs) = 0 := by simp [indentLength, hindent]
      unfold contentAhead contentLine?
      rw [hline, hlength]
      simp [hindent]
  · exact absurd rfl hne

theorem blankLength_drop (cs : List Char) : blankLength (cs.drop (blankLength cs)) = 0 := by
  fun_induction blankLength cs with
  | case1 cs ih => exact ih
  | case2 cs ih => exact ih
  | case3 c cs _ _ _ ih => exact ih
  | case4 c cs hn hr hindent => rw [List.drop_zero, blankLength.eq_3 c cs hn hr, if_neg hindent]
  | case5 => rfl

/-! ### Levels -/

/-- The open levels that a line of this width leaves open, innermost first. A line between two
levels stays in the inner one, and the level of the first line stays open. -/
def leave (width : Nat) : List Nat → List Nat
  | top :: next :: below =>
    if width ≤ next then leave width (next :: below) else top :: next :: below
  | stack => stack

/-- The levels that are open on a line of this width, with those of the line above it. -/
def settle (stack : List Nat) (width : Nat) : List Nat :=
  if stack.headD 0 < width then width :: stack else leave width stack

def markersOf (stack : List Nat) (width : Nat) : List TokenKind :=
  if stack.headD 0 < width then [.indent]
  else .replicate (stack.length - (leave width stack).length) .dedent

def levelsOf : List ContentLine → List Nat
  | [] => []
  | first :: lines => (lines.map ContentLine.width).foldl settle [first.width]

def levelOf (lines : List ContentLine) : Nat := (levelsOf lines).headD 0

theorem leave_suffix (width : Nat) (stack : List Nat) : leave width stack <:+ stack := by
  fun_induction leave width stack with
  | case1 top next below _ ih => exact ih.trans (List.suffix_cons top _)
  | case2 => exact List.suffix_rfl
  | case3 => exact List.suffix_rfl

theorem le_headD_of_descends {stack : List Nat} {level : Nat} (h : stack.Pairwise (· > ·))
    (hl : level ∈ stack) : level ≤ stack.headD 0 := by
  cases stack with
  | nil => cases hl
  | cons top below =>
    rcases List.mem_cons.1 hl with rfl | hl
    · exact Nat.le_refl level
    · exact Nat.le_of_lt ((List.pairwise_cons.1 h).1 level hl)

theorem settle_descends {stack : List Nat} (width : Nat) (h : stack.Pairwise (· > ·)) :
    (settle stack width).Pairwise (· > ·) := by
  unfold settle
  split
  · rename_i hdeep
    refine List.pairwise_cons.2 ⟨fun level hl => ?_, h⟩
    have hhead := le_headD_of_descends h hl
    omega
  · exact h.sublist (leave_suffix width stack).sublist

theorem headD_leave {stack : List Nat} {width : Nat} (h : stack.Pairwise (· > ·))
    (hw : width ∈ leave width stack) : (leave width stack).headD 0 = width := by
  fun_induction leave width stack with
  | case1 top next below _ ih => exact ih (List.pairwise_cons.1 h).2 hw
  | case2 top next below hnext =>
    rcases List.mem_cons.1 hw with rfl | hw
    · rfl
    · have hle := le_headD_of_descends (List.pairwise_cons.1 h).2 hw
      exact absurd hle hnext
  | case3 stack hshort =>
    match stack, hshort, hw with
    | [level], _, hw => exact (List.mem_singleton.1 hw).symm
    | top :: next :: below, hshort, _ => exact (hshort top next below rfl).elim

theorem headD_settle {stack : List Nat} {width : Nat} (h : stack.Pairwise (· > ·))
    (hw : width ∈ settle stack width) : (settle stack width).headD 0 = width := by
  unfold settle at hw ⊢
  split
  · rfl
  · rename_i hdeep
    rw [if_neg hdeep] at hw
    exact headD_leave h hw

theorem foldl_settle_descends (widths : List Nat) {stack : List Nat}
    (h : stack.Pairwise (· > ·)) : (widths.foldl settle stack).Pairwise (· > ·) := by
  induction widths generalizing stack with
  | nil => exact h
  | cons width widths ih => exact ih (settle_descends width h)

theorem levelOf_eq_width {before : List ContentLine} {line : ContentLine}
    (h : line.width ∈ levelsOf (before ++ [line])) : levelOf (before ++ [line]) = line.width := by
  cases before with
  | nil => rfl
  | cons first before =>
    simp only [List.cons_append, levelOf, levelsOf, List.map_append, List.map_cons, List.map_nil,
      List.foldl_append, List.foldl_cons, List.foldl_nil] at h ⊢
    exact headD_settle (foldl_settle_descends _ (List.pairwise_singleton _ _)) h

namespace Cursor

variable {c : Cursor}

/-- The levels that are open, with that of the first line. -/
def stack (c : Cursor) : List Nat := c.levels ++ [c.base]

def Descends (c : Cursor) : Prop := c.stack.Pairwise (· > ·)

theorem headD_stack (c : Cursor) : c.stack.headD 0 = c.levels.headD c.base := by
  unfold stack
  cases c.levels <;> rfl

theorem leave_stack (width : Nat) {base : Nat} {levels : List Nat}
    (h : (levels ++ [base]).Pairwise (· > ·)) :
    leave width (levels ++ [base]) = levels.drop (closedLevels base width levels) ++ [base] := by
  induction levels with
  | nil => rfl
  | cons top below ih =>
    have hrest : (below ++ [base]).Pairwise (· > ·) := (List.pairwise_cons.1 h).2
    have hleave : leave width (top :: below ++ [base]) =
        if width ≤ below.headD base then leave width (below ++ [base])
        else top :: below ++ [base] := by
      cases below <;> rfl
    have htop : below.headD base < top := by
      refine (List.pairwise_cons.1 h).1 _ ?_
      cases below <;> simp
    rw [hleave, closedLevels]
    by_cases hw : width ≤ below.headD base
    · have hlt : width < top := by omega
      rw [if_pos hw, if_pos ⟨hlt, hw⟩, ih hrest, List.drop_succ_cons]
    · rw [if_neg hw, if_neg fun hboth => hw hboth.2]
      rfl

theorem measure_eq (h : c.Descends) (hr : c.rest ≠ []) :
    c.measure.stack = settle c.stack (c.position.column - 1) ∧
      c.measure.owed = markersOf c.stack (c.position.column - 1) ∧ c.measure.Descends := by
  have hleave := leave_stack (c.position.column - 1) h
  have hmeasure : c.measure.stack = settle c.stack (c.position.column - 1) ∧
      c.measure.owed = markersOf c.stack (c.position.column - 1) := by
    unfold measure settle markersOf
    simp only
    rw [if_neg hr, headD_stack]
    split
    · exact ⟨rfl, rfl⟩
    · refine ⟨hleave.symm, ?_⟩
      have hclosed := closedLevels_le c.base (c.position.column - 1) c.levels
      rw [stack, hleave]
      simp only [List.length_append, List.length_drop]
      congr 1
      omega
  refine ⟨hmeasure.1, hmeasure.2, ?_⟩
  rw [Descends, hmeasure.1]
  exact settle_descends _ h

end Cursor

/-! ### Tokens of lines -/

def TokenKind.ofLine : List TokenKind :=
  [.text, .identifier, .optionStart, .optionSep, .optionEnd, .commandStart, .commandEnd,
    .shortcutMarker]

theorem TokenKind.mem_ofLine {kind : TokenKind} (h : kind ∈ covering) (hn : kind ≠ .newline) :
    kind ∈ ofLine := by
  revert kind
  decide

/-- An arrow in front of a line is the first of its tokens. -/
def Begins (line : ContentLine) (ts : List Token) : Prop :=
  Mode.atArrow line.content = true → ∀ t ∈ ts.head?, t.kind = .shortcutMarker

/-- Tokens from a place on a line on, with the levels that are open there and the content lines
below. -/
inductive Laid : Nat → List Nat → List ContentLine → List Token → Prop
  | inner {number : Nat} {stack : List Nat} {below : List ContentLine} {t : Token}
      {ts : List Token} (kind : t.kind ∈ TokenKind.ofLine) (line : t.position.line = number)
      (rest : Laid number stack below ts) : Laid number stack below (t :: ts)
  | next {number : Nat} {stack : List Nat} {line : ContentLine} {below : List ContentLine}
      {newline : Token} {markers ts : List Token} (breaks : newline.kind = .newline)
      (levels : markers.map Token.kind = markersOf stack line.width)
      (lower : number < line.number) (begins : Begins line ts)
      (rest : Laid line.number (settle stack line.width) below ts) :
      Laid number stack (line :: below) (newline :: (markers ++ ts))
  | last {number : Nat} {stack : List Nat} {breaks markers : List Token} {last : Token}
      (blank : ∀ t ∈ breaks, t.kind = .newline) (once : breaks.length ≤ 1)
      (levels : markers.map Token.kind = .replicate (stack.length - 1) .dedent)
      (ends : last.kind = .endOfInput) : Laid number stack [] (breaks ++ markers ++ [last])

section

variable {number : Nat} {stack : List Nat} {line : ContentLine} {below : List ContentLine}
  {t : Token} {ts : List Token}

theorem kind_of_mem_markersOf {width : Nat} {kind : TokenKind} (h : kind ∈ markersOf stack width) :
    kind = .indent ∨ kind = .dedent := by
  unfold markersOf at h
  split at h
  · exact Or.inl (List.mem_singleton.1 h)
  · exact Or.inr (List.eq_of_mem_replicate h)

theorem not_mem_ofLine_of_break {newline : Token} {markers : List Token} {width : Nat}
    (breaks : newline.kind = .newline) (levels : markers.map Token.kind = markersOf stack width)
    (ht : t ∈ newline :: markers) : t.kind ∉ TokenKind.ofLine := by
  rcases List.mem_cons.1 ht with rfl | ht
  · rw [breaks]
    decide
  · have hmem : t.kind ∈ markersOf stack width := levels ▸ List.mem_map_of_mem ht
    rcases kind_of_mem_markersOf hmem with hk | hk
    · rw [hk]
      decide
    · rw [hk]
      decide

theorem not_mem_ofLine_of_end {breaks markers : List Token} {last : Token} {n : Nat}
    (blank : ∀ t ∈ breaks, t.kind = .newline)
    (levels : markers.map Token.kind = .replicate n .dedent) (ends : last.kind = .endOfInput)
    (ht : t ∈ breaks ++ markers ++ [last]) : t.kind ∉ TokenKind.ofLine := by
  rcases List.mem_append.1 ht with ht | ht
  · rcases List.mem_append.1 ht with ht | ht
    · rw [blank t ht]
      decide
    · have hmem : t.kind ∈ List.replicate n TokenKind.dedent := levels ▸ List.mem_map_of_mem ht
      rw [List.eq_of_mem_replicate hmem]
      decide
  · rw [List.mem_singleton.1 ht, ends]
    decide

theorem Laid.lt_number (h : Laid number stack below ts) (hl : line ∈ below) :
    number < line.number := by
  induction h with
  | inner _ _ _ ih => exact ih hl
  | next _ _ lower _ _ ih =>
    rcases List.mem_cons.1 hl with rfl | hl
    · exact lower
    · exact Nat.lt_trans lower (ih hl)
  | last => cases hl

theorem Laid.le_line (h : Laid number stack below ts) (ht : t ∈ ts)
    (hk : t.kind ∈ TokenKind.ofLine) : number ≤ t.position.line := by
  induction h with
  | inner _ line _ ih =>
    rcases List.mem_cons.1 ht with rfl | ht
    · exact Nat.le_of_eq line.symm
    · exact ih ht
  | next breaks levels lower _ _ ih =>
    rw [← List.cons_append] at ht
    rcases List.mem_append.1 ht with ht | ht
    · exact absurd hk (not_mem_ofLine_of_break breaks levels ht)
    · exact Nat.le_of_lt (Nat.lt_of_lt_of_le lower (ih ht))
  | last blank _ levels ends => exact absurd hk (not_mem_ofLine_of_end blank levels ends ht)

theorem Laid.exists_lower (h : Laid number stack below ts) :
    ∃ inner rest, ts = inner ++ rest ∧ (∀ t ∈ inner, t.kind ∈ TokenKind.ofLine) ∧
      ∀ t ∈ rest, t.kind ∈ TokenKind.ofLine → number < t.position.line := by
  induction h with
  | @inner _ _ _ t _ kind _ _ ih =>
    obtain ⟨inner, rest, rfl, hinner, hrest⟩ := ih
    refine ⟨t :: inner, rest, rfl, ?_, hrest⟩
    exact List.forall_mem_cons.2 ⟨kind, hinner⟩
  | next breaks levels lower _ rest =>
    refine ⟨[], _, rfl, nofun, fun t ht hk => ?_⟩
    rw [← List.cons_append] at ht
    rcases List.mem_append.1 ht with ht | ht
    · exact absurd hk (not_mem_ofLine_of_break breaks levels ht)
    · exact Nat.lt_of_lt_of_le lower (rest.le_line ht hk)
  | last blank _ levels ends =>
    exact ⟨[], _, rfl, nofun, fun t ht hk => absurd hk (not_mem_ofLine_of_end blank levels ends ht)⟩

theorem Laid.exists_break (h : Laid number stack (line :: below) ts) :
    ∃ inner newline markers rest, ts = inner ++ newline :: (markers ++ rest) ∧
      (∀ t ∈ inner, t.kind ∈ TokenKind.ofLine ∧ t.position.line = number) ∧
      newline.kind = .newline ∧ markers.map Token.kind = markersOf stack line.width ∧
      Laid line.number (settle stack line.width) below rest := by
  generalize hlines : line :: below = lines at h
  induction h with
  | @inner _ _ _ t _ kind onLine _ ih =>
    obtain ⟨inner, newline, markers, rest, rfl, hinner, hbreak⟩ := ih hlines
    refine ⟨t :: inner, newline, markers, rest, rfl, ?_, hbreak⟩
    exact List.forall_mem_cons.2 ⟨⟨kind, onLine⟩, hinner⟩
  | next breaks levels _ _ rest =>
    cases hlines
    exact ⟨[], _, _, _, rfl, nofun, breaks, levels, rest⟩
  | last => cases hlines

theorem Laid.exists_line {before : List ContentLine}
    (h : Laid number stack (before ++ line :: below) ts) :
    ∃ front rest, ts = front ++ rest ∧
      (∀ t ∈ front, t.kind ∈ TokenKind.ofLine → t.position.line < line.number) ∧
      Begins line rest ∧
      Laid line.number (((before ++ [line]).map ContentLine.width).foldl settle stack) below rest := by
  generalize hlines : before ++ line :: below = lines at h
  induction h generalizing before with
  | @inner _ _ _ t _ kind onLine inside ih =>
    obtain ⟨front, rest, rfl, hfront, hrest⟩ := ih hlines
    refine ⟨t :: front, rest, rfl, List.forall_mem_cons.2 ⟨fun _ => ?_, hfront⟩, hrest⟩
    rw [onLine]
    exact inside.lt_number (by rw [← hlines]; exact List.mem_append_right _ List.mem_cons_self)
  | @next _ _ first lower newline markers ts breaks levels _ begins rest ih =>
    have hbreak : ∀ t ∈ newline :: markers, t.kind ∈ TokenKind.ofLine →
        t.position.line < line.number := fun t ht hk =>
      absurd hk (not_mem_ofLine_of_break breaks levels ht)
    cases before with
    | nil =>
      cases hlines
      exact ⟨newline :: markers, ts, rfl, hbreak, begins, rest⟩
    | cons _ before =>
      cases hlines
      obtain ⟨front, behind, rfl, hfront, hbehind⟩ := ih rfl
      refine ⟨newline :: markers ++ front, behind, by simp, ?_, hbehind⟩
      exact List.forall_mem_append.2 ⟨hbreak, hfront⟩
  | last =>
    cases before <;> cases hlines

theorem Laid.kind_ne_indent (h : Laid number stack below ts) :
    ∀ t ∈ ts.head?, t.kind ≠ .indent := by
  intro t ht hk
  cases h with
  | inner kind =>
    cases ht
    rw [hk] at kind
    exact absurd kind (by decide)
  | next breaks =>
    cases ht
    rw [hk] at breaks
    cases breaks
  | @last _ _ lead markers last blank _ levels ends =>
    have hmem := List.mem_of_mem_head? ht
    rcases List.mem_append.1 hmem with hmem | hmem
    · rcases List.mem_append.1 hmem with hmem | hmem
      · cases hk.symm.trans (blank t hmem)
      · have hdedent : t.kind ∈ List.replicate (stack.length - 1) TokenKind.dedent :=
          levels ▸ List.mem_map_of_mem hmem
        cases hk.symm.trans (List.eq_of_mem_replicate hdedent)
    · rw [List.mem_singleton.1 hmem, ends] at hk
      cases hk

end

namespace Cursor

variable {c : Cursor} {ts : List Token}

theorem tokens?_of_owed {kinds : List TokenKind} (ho : c.owed = kinds)
    (hk : ∀ kind ∈ kinds, kind.isFinal = false) (h : c.tokens? = .ok ts) :
    ∃ markers rest, ts = markers ++ rest ∧ markers.map Token.kind = kinds ∧
      ({ c with owed := [] } : Cursor).tokens? = .ok rest := by
  induction kinds generalizing c ts with
  | nil =>
    obtain ⟨⟩ := c
    obtain rfl := ho
    exact ⟨[], ts, rfl, rfl, h⟩
  | cons kind kinds ih =>
    have hstep := step_of_owed ho
    have hmore : c.step.1.kind.isFinal = false := by
      rw [hstep]
      exact hk kind List.mem_cons_self
    rw [tokens?_of_not_isFinal c hmore, hstep] at h
    obtain ⟨rest, hrest, rfl⟩ := exists_of_map_eq_ok h
    obtain ⟨markers, behind, rfl, hkinds, hbehind⟩ :=
      ih rfl (fun k hmem => hk k (List.mem_cons_of_mem kind hmem)) hrest
    exact ⟨c.marker kind :: markers, behind, rfl, by rw [List.map_cons, hkinds]; rfl, hbehind⟩

theorem isFinal_of_mem_markersOf {stack : List Nat} {width : Nat} {kind : TokenKind}
    (h : kind ∈ markersOf stack width) : kind.isFinal = false := by
  rcases kind_of_mem_markersOf h with rfl | rfl
  · rfl
  · rfl

theorem begins_tokens? (hm : c.mode = .base) (hl : c.lineStart = true) (hs : c.started = true)
    (ho : c.owed = []) (h : c.tokens? = .ok ts) {line : ContentLine}
    (hline : line.content = lineAt c.rest) : Begins line ts := by
  intro harrow t ht
  have hrest : Mode.atArrow c.rest = true := by
    rw [hline] at harrow
    obtain ⟨more, hmore⟩ := lineAt_prefix c.rest
    rw [← hmore]
    unfold Mode.atArrow at harrow
    split at harrow
    · rename_i heq
      rw [heq]
      rfl
    · cases harrow
  have hne : c.rest ≠ [] := by
    intro hnil
    rw [hnil] at hrest
    cases hrest
  have htoken : c.mode.tokenAt c.lineStart c.rest = some (.shortcutMarker, 2) :=
    if_pos ⟨hm, hl, hrest⟩
  have hstep : c.step.1.kind = .shortcutMarker := by
    rw [step_of_started hs ho, if_neg hne, stepContent, htoken]
    rfl
  rw [head?_tokens? h] at ht
  rw [← Option.some.inj ht]
  exact hstep

theorem laid_of_rest_nil {number : Nat} (breaks : List Token) (hs : c.started = true)
    (hr : c.rest = []) (ho : c.owed = []) (hblank : ∀ t ∈ breaks, t.kind = .newline)
    (honce : breaks.length ≤ 1) (h : c.tokens? = .ok ts) : Laid number c.stack [] (breaks ++ ts) := by
  rw [tokens?_of_rest_nil hs hr ho] at h
  cases h
  rw [← List.append_assoc]
  refine .last hblank honce ?_ rfl
  simp [closing, stack]

theorem laid_lineBreak (hs : c.started = true) (ho : c.owed = []) (hd : c.Descends)
    (hm : c.mode = .base) (hbreak : atLineBreak c.rest = true)
    (h : c.stepContent.2.tokens? = .ok ts)
    (hbehind : ∀ (d : Cursor) (rest : List Token), d.started = true → d.owed = [] → d.Descends →
      d.rest.length < c.rest.length → d.tokens? = .ok rest → Laid d.position.line d.stack
        (contentFrom (d.position.line + 1) (linesBelow d.rest)) rest) :
    Laid c.position.line c.stack (contentFrom (c.position.line + 1) (linesBelow c.rest))
      (c.stepContent.1 :: ts) := by
  have hstep := stepContent_lineBreak hm hbreak
  have hbelow := contentFrom_lineBreak c.position hbreak
  rw [hstep] at h ⊢
  set d := (c.skip (blankLength c.rest)).enter .newline with hdef
  have hposition : d.position = c.position.advance (c.rest.take (blankLength c.rest)) := rfl
  have hrest : d.rest = c.rest.drop (blankLength c.rest) := rfl
  have hstack : d.stack = c.stack := rfl
  rw [← hposition, ← hrest] at hbelow
  by_cases hr : d.rest = []
  · have hmeasure : d.measure = d := if_pos hr
    rw [hmeasure] at h
    have hnone : contentAhead d.position d.rest = [] := by
      rw [hr]
      rfl
    rw [hbelow, hnone, ← hstack]
    refine laid_of_rest_nil [c.cut .newline (blankLength c.rest)] hs hr ho ?_
      (Nat.le_refl 1) h
    intro t ht
    rw [List.mem_singleton.1 ht]
    rfl
  · have hblank : blankLength d.rest = 0 := blankLength_drop c.rest
    have hcontent := content_of_blankLength d.position hblank hr
    obtain ⟨hlevels, howed, hdescends⟩ := measure_eq (c := d) hd hr
    obtain ⟨levels, owed, hframe⟩ := measure_frame d
    rw [hframe] at h hlevels howed hdescends
    obtain ⟨markers, behind, rfl, hkinds, htokens⟩ :=
      tokens?_of_owed rfl (fun kind hk => isFinal_of_mem_markersOf (howed ▸ hk)) h
    have hshort : d.rest.length < c.rest.length := by
      have hpos := Mode.blankLength_pos c.rest hbreak
      have hle := Mode.blankLength_le c.rest
      rw [hrest, List.length_drop]
      omega
    have hmode : d.mode = .base := by
      rw [hdef, enter, skip, hm]
      rfl
    have hlower : c.position.line < d.position.line := by
      have hmem : ⟨d.position.line, d.position.column - 1, lineAt d.rest⟩ ∈
          contentFrom (c.position.line + 1) (linesBelow c.rest) := by
        rw [hbelow, hcontent]
        exact List.mem_cons_self
      exact lt_number_of_mem hmem
    rw [hbelow, hcontent]
    refine .next rfl (hkinds.trans howed) hlower ?_ ?_
    · exact begins_tokens? (c := { d with levels := levels, owed := [] }) hmode rfl hs rfl htokens
        rfl
    · rw [← hstack, ← hlevels]
      exact hbehind { d with levels := levels, owed := [] } behind hs rfl hdescends hshort htokens

theorem laid_tokens? (hs : c.started = true) (ho : c.owed = []) (hd : c.Descends)
    (h : c.tokens? = .ok ts) :
    Laid c.position.line c.stack (contentFrom (c.position.line + 1) (linesBelow c.rest)) ts := by
  -- Every token of a line uses up text; the markers between lines are taken all at once.
  induction hn : c.rest.length using Nat.strong_induction_on generalizing c ts with
  | _ n ih =>
    subst hn
    by_cases hr : c.rest = []
    · have hbelow : contentFrom (c.position.line + 1) (linesBelow c.rest) = [] := by
        rw [hr]
        rfl
      rw [hbelow]
      exact laid_of_rest_nil [] hs hr ho nofun (Nat.zero_le 1) h
    · have hstep : c.step = c.stepContent := by rw [step_of_started hs ho, if_neg hr]
      have hvalid : c.stepContent.1.kind ≠ .invalid := by
        intro hk
        rw [tokens?, hstep, dif_neg (by rw [hk]; decide), if_pos hk] at h
        cases h
      rw [tokens?_of_not_isFinal c (by rw [hstep]; exact stepContent_isFinal hvalid), hstep] at h
      obtain ⟨rest, hrest, rfl⟩ := exists_of_map_eq_ok h
      cases htoken : c.mode.tokenAt c.lineStart c.rest with
      | none => simp [stepContent, htoken, cut] at hvalid
      | some found =>
        obtain ⟨kind, k⟩ := found
        have hpos := Mode.tokenAt_pos _ _ _ _ _ htoken
        have hshort : (c.rest.drop k).length < c.rest.length := by
          have hlength := List.length_pos_iff.2 hr
          rw [List.length_drop]
          omega
        by_cases hk : kind = .newline
        · subst hk
          obtain ⟨hbreak, -⟩ := Mode.tokenAt_newline htoken
          have hm : c.mode = .base := by
            by_contra hm
            rw [tokenAt_lineBreak _ _ hbreak, if_neg hm] at htoken
            cases htoken
          exact laid_lineBreak hs ho hd hm hbreak hrest fun d behind hs' ho' hd' hlt hbehind =>
            ih _ hlt hs' ho' hd' hbehind rfl
        · have hnext : c.stepContent = (c.cut kind k, (c.skip k).enter kind) := by
            simp only [stepContent, htoken, if_neg hk]
          rw [hnext] at hrest ⊢
          have hbreak := Mode.newline_not_mem_tokenAt htoken hk
          have hbelow : linesBelow c.rest = linesBelow (c.rest.drop k) := by
            conv_lhs => rw [← List.take_append_drop k c.rest]
            exact linesBelow_append hbreak
          have hline : (c.position.advance (c.rest.take k)).line = c.position.line :=
            c.position.advance_line_of_not_mem hbreak
          have hbehind := ih _ hshort (c := (c.skip k).enter kind) hs ho hd hrest rfl
          refine .inner (TokenKind.mem_ofLine (Mode.tokenAt_kind htoken) hk) rfl ?_
          rw [hbelow, ← hline]
          exact hbehind

/-- The tokens of a body are laid out in its content lines. -/
theorem laid_tokenize {body : List Char} {tokens : List Token} {first : ContentLine}
    {below : List ContentLine} (h : Body.tokenize body = .ok tokens)
    (hlines : contentLines body = first :: below) :
    ∃ lead rest, tokens = lead ++ rest ∧ (∀ t ∈ lead, t.kind = .newline) ∧ Begins first rest ∧
      Laid first.number [first.width] below rest := by
  obtain ⟨lead, rest, rfl, hrest, hlead⟩ := tokens_of_tokenize h
  rw [contentLines_eq, contentAhead_blank body .start (by decide)] at hlines
  by_cases hr : (opened body).rest = []
  · have hnone : contentAhead (opened body).position (opened body).rest = [] := by
      rw [hr]
      rfl
    cases hnone.symm.trans hlines
  · have hcontent := content_of_blankLength (opened body).position (blankLength_drop body) hr
    obtain ⟨rfl, rfl⟩ := List.cons.inj (hcontent.symm.trans hlines)
    refine ⟨lead, rest, rfl, ?_, begins_tokens? rfl rfl rfl rfl hrest rfl, ?_⟩
    · intro t ht
      rcases hlead with rfl | rfl
      · cases ht
      · rw [List.mem_singleton.1 ht]
        rfl
    · exact laid_tokens? (c := opened body) rfl rfl (List.pairwise_singleton _ _) hrest

/-- The tokens in front of a content line and from it on, with the levels open on it. -/
theorem laid_line {body : List Char} {tokens : List Token} {before below : List ContentLine}
    {line : ContentLine} (h : Body.tokenize body = .ok tokens)
    (hlines : contentLines body = before ++ line :: below) :
    ∃ front rest, tokens = front ++ rest ∧
      (∀ t ∈ front, t.kind ∈ TokenKind.ofLine → t.position.line < line.number) ∧
      Begins line rest ∧ Laid line.number (levelsOf (before ++ [line])) below rest := by
  have hlead : ∀ lead : List Token, (∀ t ∈ lead, t.kind = .newline) → ∀ t ∈ lead,
      t.kind ∈ TokenKind.ofLine → t.position.line < line.number := by
    intro lead hnewline t ht hk
    rw [hnewline t ht] at hk
    exact absurd hk (by decide)
  cases before with
  | nil =>
    obtain ⟨lead, rest, rfl, hnewline, hbegins, hlaid⟩ := laid_tokenize h hlines
    exact ⟨lead, rest, rfl, hlead lead hnewline, hbegins, hlaid⟩
  | cons first before =>
    obtain ⟨lead, rest, rfl, hnewline, -, hlaid⟩ := laid_tokenize h hlines
    obtain ⟨front, behind, rfl, hfront, hbehind⟩ := hlaid.exists_line
    refine ⟨lead ++ front, behind, (List.append_assoc _ _ _).symm, ?_, hbehind⟩
    exact List.forall_mem_append.2 ⟨hlead lead hnewline, hfront⟩

end Cursor

end Dialogue
