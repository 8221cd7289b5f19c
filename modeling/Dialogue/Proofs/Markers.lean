import Mathlib.Data.List.Infix
import Dialogue.Proofs.Recasting

/-!
# Markers of levels

The markers in a body are a function of the widths of its content lines. Listed from
the outermost level on, the open levels strictly increase; a deeper line adds its width to
them, and any other line keeps the shortest part of them that ends as deep as the line
(`ascend`). In front of the line stands one marker for each level that this opens or
closes, and at the end of the body one for each that is still open.
-/

namespace Dialogue

/-- The levels that are open on a line of this width, with those of the line above it, outermost
first. -/
def ascend (stack : List Nat) (width : Nat) : List Nat :=
  if stack.getLastD 0 < width then stack ++ [width]
  else (stack.inits.find? fun outer => outer.getLast?.any (width ≤ ·)).getD stack

def openLevels : List ContentLine → List Nat
  | [] => []
  | first :: lines => (lines.map ContentLine.width).foldl ascend [first.width]

section

variable {stack : List Nat} {width : Nat}

/-- Levels are left from the innermost on until the next one would be too narrow, and what stays
is the first choice from the outermost on. -/
theorem find?_inits_reverse (h : stack.Pairwise (· > ·)) (hne : stack ≠ [])
    (hw : width ≤ stack.headD 0) :
    stack.reverse.inits.find? (fun outer => outer.getLast?.any (width ≤ ·)) =
      some (leave width stack).reverse := by
  fun_induction leave width stack with
  | case1 top next below hnext ih =>
    rw [List.reverse_cons, List.inits_append, List.find?_append,
      ih (List.pairwise_cons.1 h).2 (List.cons_ne_nil _ _) hnext]
    rfl
  | case2 top next below hnext =>
    have hnone : (next :: below).reverse.inits.find?
        (fun outer => outer.getLast?.any (width ≤ ·)) = none := by
      refine List.find?_eq_none.2 fun outer houter hany => ?_
      obtain ⟨level, hlevel, hle⟩ := (Option.any_eq_true _ _).1 hany
      have hmem : level ∈ next :: below := List.mem_reverse.1
        (((List.mem_inits _ _).1 houter).subset (List.mem_of_getLast? hlevel))
      have hmax := le_headD_of_descends (List.pairwise_cons.1 h).2 hmem
      exact hnext (Nat.le_trans (of_decide_eq_true hle) hmax)
    rw [List.reverse_cons, List.inits_append, List.find?_append, hnone]
    simpa using hw
  | case3 stack hshort =>
    cases stack with
    | nil => exact absurd rfl hne
    | cons top below =>
      cases below with
      | nil => simpa using hw
      | cons next below => exact (hshort top next below rfl).elim

theorem getLastD_reverse (stack : List Nat) : stack.reverse.getLastD 0 = stack.headD 0 := by
  cases stack with
  | nil => rfl
  | cons top below => simp

theorem ascend_reverse (h : stack.Pairwise (· > ·)) (hne : stack ≠ []) :
    ascend stack.reverse width = (settle stack width).reverse := by
  unfold ascend settle
  rw [getLastD_reverse]
  split
  · exact (List.reverse_cons).symm
  · rename_i hdeep
    rw [find?_inits_reverse h hne (Nat.not_lt.1 hdeep)]
    rfl

theorem foldl_ascend_reverse (widths : List Nat) (h : stack.Pairwise (· > ·)) (hne : stack ≠ []) :
    widths.foldl ascend stack.reverse = (widths.foldl settle stack).reverse := by
  induction widths generalizing stack with
  | nil => rfl
  | cons width widths ih =>
    rw [List.foldl_cons, List.foldl_cons, ascend_reverse h hne]
    exact ih (settle_descends width h) (settle_ne_nil width hne)

end

theorem openLevels_eq (lines : List ContentLine) : openLevels lines = (levelsOf lines).reverse := by
  cases lines with
  | nil => rfl
  | cons first lines =>
    exact foldl_ascend_reverse _ (List.pairwise_singleton _ first.width) (List.cons_ne_nil _ _)

theorem levelsOf_descends (lines : List ContentLine) : (levelsOf lines).Pairwise (· > ·) := by
  cases lines with
  | nil => exact .nil
  | cons first lines => exact foldl_settle_descends _ (List.pairwise_singleton _ first.width)

theorem openLevels_ascends (lines : List ContentLine) : (openLevels lines).Pairwise (· < ·) := by
  rw [openLevels_eq, List.pairwise_reverse]
  exact levelsOf_descends lines

theorem levelsOf_append_pair (before : List ContentLine) (line next : ContentLine) :
    levelsOf (before ++ [line, next]) = settle (levelsOf (before ++ [line])) next.width := by
  cases before with
  | nil => rfl
  | cons first before =>
    simp only [List.cons_append, levelsOf, List.map_append, List.map_cons, List.map_nil,
      List.foldl_append, List.foldl_cons, List.foldl_nil]

theorem markersOf_levelsOf (before : List ContentLine) (line next : ContentLine) :
    markersOf (levelsOf (before ++ [line])) next.width =
      if (openLevels (before ++ [line])).getLastD 0 < next.width then [.indent]
      else .replicate ((openLevels (before ++ [line])).length -
        (openLevels (before ++ [line, next])).length) .dedent := by
  simp only [openLevels_eq, levelsOf_append_pair, getLastD_reverse, List.length_reverse, markersOf]
  split
  · rfl
  · rename_i hdeep
    rw [settle, if_neg hdeep]

/-! ### Lines and their tokens -/

structure ContentLine.Covered (line : ContentLine) (own : List Token) : Prop where
  ne_nil : own ≠ []
  spells : own.flatMap Token.text = line.content
  kind : ∀ t ∈ own, t.kind ∈ TokenKind.ofLine
  number : ∀ t ∈ own, t.position.line = line.number

namespace Cursor

variable {c : Cursor} {stack : List Nat} {line : ContentLine} {below : List ContentLine}
  {ts : List Token}

/-- A body with tokens is walked along to the end of the line. Unlike for whole lines with closed
brackets, the mode at the end is open. -/
theorem Ready.walks_to_end (h : c.Ready stack) (ht : c.tokens? = .ok ts) :
    ∃ own d, Walks c own d ∧ d.Ready stack ∧ lineAt d.rest = [] ∧
      d.position.line = c.position.line ∧ linesBelow d.rest = linesBelow c.rest ∧
      own.flatMap Token.text = lineAt c.rest ∧
      (∀ t ∈ own, t.kind ∈ TokenKind.ofLine) ∧ ∀ t ∈ own, t.position.line = c.position.line := by
  induction hn : c.rest.length using Nat.strong_induction_on generalizing c ts with
  | _ n ih =>
    subst hn
    by_cases hline : lineAt c.rest = []
    · exact ⟨[], c, .nil c, h, hline, rfl, rfl, hline.symm, nofun, nofun⟩
    · obtain ⟨kind, n, rest, htoken, hk, hle, hstep, -, hrest, hshort⟩ := h.exists_token ht hline
      have hkind := TokenKind.mem_ofLine (Mode.tokenAt_kind htoken) hk
      have hposition : ((c.skip n).enter kind).position.line = c.position.line := line_skip hle
      have hlower : linesBelow ((c.skip n).enter kind).rest = linesBelow c.rest :=
        linesBelow_drop hle
      obtain ⟨own, d, hwalk, hready, hend, hnumber, hbelow, hspells, hkinds, hnumbers⟩ :=
        ih _ hshort (h.enter kind n) hrest rfl
      rw [hposition] at hnumber hnumbers
      refine ⟨c.cut kind n :: own, d,
        .cons hstep (TokenKind.isFinal_of_mem_ofLine hkind) hwalk, hready, hend, hnumber,
        hbelow.trans hlower, ?_, List.forall_mem_cons.2 ⟨hkind, hkinds⟩,
        List.forall_mem_cons.2 ⟨rfl, hnumbers⟩⟩
      calc (c.cut kind n :: own).flatMap Token.text
          = c.rest.take n ++ lineAt (c.rest.drop n) := by rw [List.flatMap_cons, hspells]; rfl
        _ = lineAt c.rest := by rw [← drop_lineAt hle, ← take_lineAt hle, List.take_append_drop]

theorem Ready.exists_line (h : c.Ready stack) (hl : c.AtLine line below)
    (hne : line.content ≠ []) (ht : c.tokens? = .ok ts) :
    ∃ (own rest : List Token) (d : Cursor), ts = own ++ rest ∧ line.Covered own ∧
      d.Ready stack ∧ d.tokens? = .ok rest ∧
      (d.rest = [] ∧ below = [] ∨ d.AtEnd line.number below) := by
  obtain ⟨own, d, hwalk, hready, hend, hnumber, hbelow, hspells, hkinds, hnumbers⟩ :=
    h.walks_to_end ht
  rw [hwalk.tokens?] at ht
  obtain ⟨rest, hrest, rfl⟩ := exists_of_map_eq_ok ht
  have hlower : contentFrom (d.position.line + 1) (linesBelow d.rest) = below := by
    rw [hnumber, hbelow, hl.below]
  rw [hl.content] at hspells
  rw [hl.number] at hnumber hnumbers
  have hsome : own ≠ [] := by
    rintro rfl
    exact hne hspells.symm
  refine ⟨own, rest, d, rfl, ⟨hsome, hspells, hkinds, hnumbers⟩, hready, hrest, ?_⟩
  rcases hready.over_or_mode hrest hend with hr | hmode
  · rw [hr] at hlower
    exact Or.inl ⟨hr, hlower.symm⟩
  · exact Or.inr ⟨hmode, hend, hnumber, hlower⟩

/-- Between a line and the next one stand a line break and the markers of the next one. -/
theorem Ready.exists_next {next : ContentLine} (h : c.Ready stack)
    (hl : c.AtLine line (next :: below)) (hne : line.content ≠ []) (ht : c.tokens? = .ok ts) :
    ∃ (own : List Token) (newline : Token) (markers rest : List Token) (d : Cursor),
      ts = own ++ newline :: (markers ++ rest) ∧ line.Covered own ∧ newline.kind = .newline ∧
      markers.map Token.kind = markersOf stack next.width ∧
      d.Ready (settle stack next.width) ∧ d.AtLine next below ∧ d.tokens? = .ok rest := by
  obtain ⟨own, behind, d, rfl, hcovered, hready, hbehind, ⟨-, hnone⟩ | hend⟩ :=
    h.exists_line hl hne ht
  · cases hnone
  · obtain ⟨newline, markers, f, hwalk, hbreak, hlevels, hready', hnext⟩ := hready.next hend
    rw [hwalk.tokens?] at hbehind
    obtain ⟨rest, hrest, rfl⟩ := exists_of_map_eq_ok hbehind
    exact ⟨own, newline, markers, rest, f, rfl, hcovered, hbreak, hlevels, hready', hnext, hrest⟩

theorem Ready.exists_end (h : c.Ready stack) (hl : c.AtLine line []) (hne : line.content ≠ [])
    (ht : c.tokens? = .ok ts) :
    ∃ own breaks z : List Token, ts = own ++ (breaks ++ z) ∧ line.Covered own ∧
      (∀ t ∈ breaks, t.kind = .newline) ∧ EndsBody (stack.length - 1) z := by
  obtain ⟨own, rest, d, rfl, hcovered, hready, hrest, ⟨hr, -⟩ | hend⟩ := h.exists_line hl hne ht
  · rw [tokens?_of_rest_nil hready.started hr hready.owed] at hrest
    cases hrest
    exact ⟨own, [], _, rfl, hcovered, nofun, endsBody_closing hready.stack _⟩
  · obtain ⟨breaks, z, hz, hends, hbreaks⟩ := hready.last hend
    cases hrest.symm.trans hz
    refine ⟨own, breaks, z, rfl, hcovered, ?_, hends⟩
    rcases hbreaks with rfl | ⟨t, rfl, hk⟩
    · nofun
    · exact List.forall_mem_singleton.2 hk

end Cursor

section

variable {body : List Char} {tokens : List Token} {before below : List ContentLine}
  {line : ContentLine}

/-- Every content line of a body is reached, with the levels open on it. -/
theorem exists_atLine (h : Body.tokenize body = .ok tokens)
    (hlines : contentLines body = before ++ line :: below) :
    ∃ (front rest : List Token) (c : Cursor), tokens = front ++ rest ∧
      c.Ready (levelsOf (before ++ [line])) ∧ c.AtLine line below ∧ c.tokens? = .ok rest := by
  -- A line is reached from the one above it, so the lines above are taken from the last one on.
  induction before using List.reverseRecOn generalizing line below with
  | nil =>
    obtain ⟨lead, rest, rfl, hrest, -⟩ := Cursor.tokens_of_tokenize h
    obtain ⟨hready, hline⟩ := Cursor.ready_opened hlines
    exact ⟨lead, rest, Cursor.opened body, rfl, hready, hline, hrest⟩
  | append_singleton before above ih =>
    rw [List.append_assoc] at hlines
    obtain ⟨front, rest, c, rfl, hready, hline, hrest⟩ := ih hlines
    have hfilled : above.content ≠ [] :=
      content_ne_nil_of_mem (hlines ▸ List.mem_append_right _ List.mem_cons_self)
    obtain ⟨own, newline, markers, behind, d, rfl, -, -, -, hready', hline', hbehind⟩ :=
      hready.exists_next hline hfilled hrest
    refine ⟨front ++ (own ++ newline :: markers), behind, d, by simp, ?_, hline', hbehind⟩
    rw [List.append_assoc, List.singleton_append, levelsOf_append_pair]
    exact hready'

theorem exists_markers_between {next : ContentLine} (h : Body.tokenize body = .ok tokens)
    (hlines : contentLines body = before ++ line :: next :: below) :
    ∃ (front own : List Token) (newline : Token) (markers own' rest : List Token),
      tokens = front ++ (own ++ newline :: (markers ++ (own' ++ rest))) ∧ line.Covered own ∧
      newline.kind = .newline ∧ next.Covered own' ∧
      markers.map Token.kind = markersOf (levelsOf (before ++ [line])) next.width := by
  have hfilled : ∀ l ∈ contentLines body, l.content ≠ [] := fun _ => content_ne_nil_of_mem
  rw [hlines] at hfilled
  obtain ⟨front, rest, c, rfl, hready, hline, hrest⟩ := exists_atLine h hlines
  obtain ⟨own, newline, markers, behind, d, rfl, hcovered, hbreak, hlevels, hready', hline',
    hbehind⟩ := hready.exists_next hline (hfilled line (by simp)) hrest
  obtain ⟨own', behind', -, rfl, hcovered', -⟩ :=
    hready'.exists_line hline' (hfilled next (by simp)) hbehind
  exact ⟨front, own, newline, markers, own', behind', rfl, hcovered, hbreak, hcovered', hlevels⟩

theorem exists_markers_at_end (h : Body.tokenize body = .ok tokens) :
    ∃ (front markers : List Token) (last : Token), tokens = front ++ (markers ++ [last]) ∧
      (∀ t ∈ front.getLast?, t.kind ≠ .dedent) ∧ last.kind = .endOfInput ∧
      markers.map Token.kind = .replicate ((levelsOf (contentLines body)).length - 1) .dedent := by
  rcases List.eq_nil_or_concat' (contentLines body) with hlines | ⟨before, line, hlines⟩
  · obtain ⟨lead, rest, rfl, hrest, hlead⟩ := Cursor.tokens_of_tokenize h
    rw [Cursor.tokens?_of_rest_nil rfl (Cursor.rest_opened hlines) rfl] at hrest
    cases hrest
    refine ⟨lead, [], _, rfl, fun t ht => ?_, rfl, by rw [hlines]; rfl⟩
    rcases hlead with rfl | rfl
    · cases ht
    · cases ht
      nofun
  · have hfilled : line.content ≠ [] :=
      content_ne_nil_of_mem (hlines ▸ List.mem_append_right _ List.mem_cons_self)
    obtain ⟨front, rest, c, rfl, hready, hline, hrest⟩ := exists_atLine h hlines
    obtain ⟨own, breaks, _, rfl, hcovered, hblank, ⟨hlevels, hlast⟩⟩ :=
      hready.exists_end hline hfilled hrest
    rename_i markers last
    refine ⟨front ++ (own ++ breaks), markers, last, by simp, fun t ht hk => ?_, hlast, ?_⟩
    · rw [List.getLast?_append_of_ne_nil _ (by simp [hcovered.ne_nil])] at ht
      rcases List.mem_append.1 (List.mem_of_getLast? ht) with ht | ht
      · have hkind := hcovered.kind t ht
        rw [hk] at hkind
        exact absurd hkind (by decide)
      · cases hk.symm.trans (hblank t ht)
    · rw [hlines]
      exact hlevels

theorem indents_eq_dedents (h : Body.tokenize body = .ok tokens) :
    indents tokens = dedents tokens := by
  have hcloses := Cursor.closes_tokenize h
  rw [← List.append_nil tokens] at hcloses
  obtain ⟨behind, hbehind, hcount⟩ := hcloses.exists_behind
  obtain rfl : behind = 0 := hbehind
  rwa [Nat.zero_add, Nat.zero_add] at hcount

theorem dedents_le_indents {front : List Token} (h : Body.tokenize body = .ok tokens)
    (hfront : front <+: tokens) : dedents front ≤ indents front := by
  obtain ⟨rest, rfl⟩ := hfront
  obtain ⟨behind, -, hcount⟩ := (Cursor.closes_tokenize h).exists_behind
  omega

end

/-- The open levels strictly increase from the outermost on. Between two content lines stand a line
break and the markers by which their levels differ, behind the last one those of all levels that are
still open, and every level that is opened is closed later. -/
theorem markers_follow_widths {body : List Char} {tokens : List Token}
    (h : Body.tokenize body = .ok tokens) :
    (∀ lines, lines <+: contentLines body → (openLevels lines).Pairwise (· < ·)) ∧
    (∀ (before : List ContentLine) (line next : ContentLine) (below : List ContentLine),
      contentLines body = before ++ line :: next :: below →
      ∃ (front own : List Token) (newline : Token) (markers own' rest : List Token),
        tokens = front ++ (own ++ newline :: (markers ++ (own' ++ rest))) ∧ line.Covered own ∧
        newline.kind = .newline ∧ next.Covered own' ∧
        markers.map Token.kind =
          if (openLevels (before ++ [line])).getLastD 0 < next.width then [.indent]
          else .replicate ((openLevels (before ++ [line])).length -
            (openLevels (before ++ [line, next])).length) .dedent) ∧
    (∃ (front markers : List Token) (last : Token), tokens = front ++ (markers ++ [last]) ∧
      (∀ t ∈ front.getLast?, t.kind ≠ .dedent) ∧ last.kind = .endOfInput ∧
      markers.map Token.kind = .replicate ((openLevels (contentLines body)).length - 1) .dedent) ∧
    indents tokens = dedents tokens ∧
    ∀ front, front <+: tokens → dedents front ≤ indents front := by
  refine ⟨fun lines _ => openLevels_ascends lines, fun before line next below hlines => ?_, ?_,
    indents_eq_dedents h, fun front => dedents_le_indents h⟩
  · rw [← markersOf_levelsOf]
    exact exists_markers_between h hlines
  · rw [openLevels_eq, List.length_reverse]
    exact exists_markers_at_end h

/-- A line between two levels stays in the inner one, and the next one leaves it. -/
def terrace : List Char :=
  "\n Hall.\n   -> Door\n      Lock.\n    Key.\n\n  [[Out|yard]]\n".toList

theorem markers_follow_widths_terrace :
    ∃ tokens, Body.tokenize terrace = .ok tokens ∧
      (contentLines terrace).map ContentLine.width = [1, 3, 6, 4, 2] ∧
      openLevels ((contentLines terrace).take 4) = [1, 3, 6] ∧
      openLevels (contentLines terrace) = [1, 3] ∧ indents tokens = 2 ∧ dedents tokens = 2 ∧
      ∃ (front : List Token) (marker last : Token), tokens = front ++ [marker, last] ∧
        marker.kind = .dedent ∧
        (∀ t ∈ front.getLast?, t.kind ≠ .dedent) ∧ last.kind = .endOfInput := by
  have htokens : Body.tokenize terrace = .ok (Body.tokens terrace) := by cbv
  have hlevels : openLevels (contentLines terrace) = [1, 3] := by cbv
  obtain ⟨-, -, ⟨front, markers, last, hends, hfront, hlast, hmarkers⟩, -⟩ :=
    markers_follow_widths htokens
  rw [hlevels] at hmarkers
  obtain ⟨marker, rfl, hmarker⟩ := List.map_eq_singleton_iff.1 hmarkers
  exact ⟨_, htokens, by cbv, by cbv, hlevels, by cbv, by cbv, front, marker, last, hends,
    hmarker, hfront, hlast⟩

end Dialogue
