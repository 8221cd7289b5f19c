import Dialogue.Proofs.LineTokens
import Dialogue.Proofs.ShortcutBodies

/-!
# Streams of tokens akin

Two bodies that differ in their line breaks, in the width of their indentation, or in
blanks at the ends of lines have tokens that are akin: the same tokens on other lines,
where a text at the end of a line may have lost or gained blanks, and a blank text may
follow at the end of a line (`Akin`). They are read as the same statements on the other
lines (`Assembly.read_akin`), with one exception: a blank text keeps the condition in
front of it from being read as that of an option.
-/

namespace Dialogue
open Statement (blockMapLines blockWithin branchesWithin)

/-- The same token on another line, but for blanks around its text. -/
structure Token.Akin (g : Nat → Nat) (t u : Token) : Prop where
  kind : u.kind = t.kind
  line : t.kind ∈ TokenKind.ofLine → u.position.line = g t.position.line
  trim : t.kind ∈ TokenKind.ofLine → Text.trim u.text = Text.trim t.text

/-- The kinds of tokens, texts apart, that a line may end with. -/
def TokenKind.closing : List TokenKind := [.optionEnd, .commandEnd, .shortcutMarker]

/-- The same tokens on other lines. On the lines with slack a blank text may follow. -/
inductive Akin (g : Nat → Nat) (slack : Nat → Prop) : List Token → List Token → Prop
  | nil : Akin g slack [] []
  | cons {t u : Token} {ts us : List Token} (first : t.Akin g u)
      (same : t.kind = .text → endsLine ts = false → u.text = t.text)
      (rest : Akin g slack ts us) : Akin g slack (t :: ts) (u :: us)
  | padded {t u blank : Token} {ts us : List Token} (first : t.Akin g u)
      (kind : t.kind ∈ TokenKind.closing) (line : slack t.position.line)
      (pad : blank.isBlankText = true) (ends : endsLine ts = true) (rest : Akin g slack ts us) :
      Akin g slack (t :: ts) (u :: blank :: us)

/-- What stands behind a token on a line with this number: blank text may come first. -/
inductive Behind (g : Nat → Nat) (slack : Nat → Prop) (number : Nat) (ts : List Token) :
    List Token → Prop
  | same {us : List Token} (akin : Akin g slack ts us) : Behind g slack number ts us
  | padded {blank : Token} {us : List Token} (line : slack number)
      (pad : blank.isBlankText = true) (ends : endsLine ts = true) (akin : Akin g slack ts us) :
      Behind g slack number ts (blank :: us)

section

variable {g : Nat → Nat} {slack : Nat → Prop} {number : Nat} {t u : Token} {ts us : List Token}

theorem Token.Akin.isBlankText (h : t.Akin g u) : u.isBlankText = t.isBlankText := by
  unfold Token.isBlankText
  rw [h.kind]
  by_cases hk : t.kind = .text
  · rw [h.trim (by rw [hk]; decide)]
  · rw [beq_false_of_ne hk, Bool.false_and, Bool.false_and]

theorem Akin.endsLine_eq (h : Akin g slack ts us) : endsLine us = endsLine ts := by
  cases h with
  | nil => rfl
  | cons first => simp only [endsLine, first.kind]
  | padded first => simp only [endsLine, first.kind]

theorem Akin.uncons (h : Akin g slack (t :: ts) us) :
    ∃ u behind, us = u :: behind ∧ t.Akin g u ∧ Behind g slack t.position.line ts behind := by
  cases h with
  | cons first _ rest => exact ⟨_, _, rfl, first, .same rest⟩
  | padded first kind line pad ends rest => exact ⟨_, _, rfl, first, .padded line pad ends rest⟩

theorem Akin.uncons_of_kind (h : Akin g slack (t :: ts) us) {kind : TokenKind}
    (hk : t.kind = kind) (hn : kind ∉ TokenKind.closing) :
    ∃ u behind, us = u :: behind ∧ t.Akin g u ∧
      (t.kind = .text → endsLine ts = false → u.text = t.text) ∧ Akin g slack ts behind := by
  cases h with
  | cons first same rest => exact ⟨_, _, rfl, first, same, rest⟩
  | padded _ kind => exact absurd (hk ▸ kind) hn

theorem Behind.akin_of_endsLine (h : Behind g slack number ts us) (hn : endsLine ts = false) :
    Akin g slack ts us := by
  cases h with
  | same akin => exact akin
  | padded _ _ ends => exact absurd (hn.symm.trans ends) (by decide)

theorem Behind.akin_of_line (h : Behind g slack number ts us) (hn : ¬slack number) :
    Akin g slack ts us := by
  cases h with
  | same akin => exact akin
  | padded line => exact absurd line hn

theorem Assembly.read_blankText (e : BodyEnd) (a : Assembly) (h : t.isBlankText = true)
    (ts : List Token) : a.read e (t :: ts) = a.read e ts := by
  simp only [Token.isBlankText, Bool.and_eq_true, beq_iff_eq] at h
  have hi : readItem e t ts = .ok (.space, 0) := by
    simp only [readItem, h.1]
    exact if_pos h.2
  exact read_item hi rfl

theorem Behind.read (h : Behind g slack number ts us) :
    ∃ vs, Akin g slack ts vs ∧ ∀ (e : BodyEnd) (a : Assembly), a.read e us = a.read e vs := by
  cases h with
  | same akin => exact ⟨us, akin, fun _ _ => rfl⟩
  | @padded blank vs line pad ends akin =>
    exact ⟨vs, akin, fun e a => a.read_blankText e pad vs⟩

/-! ### Conditions -/

/-- The tokens up to the end of the line stand on the line with this number. -/
def OnLine (number : Nat) : List Token → Prop
  | [] => True
  | t :: ts => t.kind ∈ TokenKind.ofLine → t.position.line = number ∧ OnLine number ts

theorem endsLine_cons_of_kind {kind : TokenKind} (hk : t.kind = kind)
    (h : kind ∈ TokenKind.ofLine) : endsLine (t :: ts) = false := by
  subst hk
  revert h
  simp only [endsLine]
  cases t.kind <;> decide

theorem isBlankText_endsLine (h : t.isBlankText = true) : endsLine (t :: ts) = false := by
  simp only [Token.isBlankText, Bool.and_eq_true, beq_iff_eq] at h
  exact endsLine_cons_of_kind h.1 (by decide)

theorem Behind.endsLine_of (h : Behind g slack number ts us) (he : endsLine us = true) :
    endsLine ts = true := by
  cases h with
  | same akin => rw [← akin.endsLine_eq, he]
  | padded _ _ ends => exact ends

/-- A condition in brackets is read in the same way, unless blank text follows it. -/
theorem conditionAt_brackets {first command last : Token} {found : Option Expr} {u₁ u₂ u₃ : Token}
    {left : List Token} (hf : first.kind = .commandStart) (hc : command.kind = .text)
    (hl : last.kind = .commandEnd) (h₁ : first.Akin g u₁) (h₂ : command.Akin g u₂)
    (ht : u₂.text = command.text) (h₃ : last.Akin g u₃) (hb : Behind g slack number ts left)
    (hfound : conditionAt (first :: command :: last :: ts) = .ok found)
    (hslack : found.isSome → ¬slack number) :
    conditionAt (u₁ :: u₂ :: u₃ :: left) = .ok (found.map (Expr.mapLines g)) ∧
      (found.isSome → Akin g slack ts left) := by
  simp only [conditionAt, h₁.kind, hf, h₂.kind, hc, h₃.kind, hl, ht, true_and] at hfound ⊢
  split at hfound
  · rename_i hword
    obtain ⟨e, he, rfl⟩ := exists_of_map_eq_ok hfound
    have hakin := hb.akin_of_line (hslack rfl)
    refine ⟨?_, fun _ => hakin⟩
    rw [if_pos ⟨hakin.endsLine_eq.trans hword.1, hword.2⟩,
      expressionAt_moved ht (h₂.line (by rw [hc]; decide)) he]
    rfl
  · rename_i hword
    cases hfound
    refine ⟨if_neg fun hother => hword ⟨hb.endsLine_of hother.1, hother.2⟩, fun hsome => ?_⟩
    cases hsome

theorem conditionAt_akin {found : Option Expr} (h : Akin g slack ts us)
    (hline : OnLine number ts) (hfound : conditionAt ts = .ok found)
    (hslack : found.isSome → ¬slack number) :
    conditionAt us = .ok (found.map (Expr.mapLines g)) ∧
      (found.isSome → Akin g slack (ts.drop 3) (us.drop 3)) := by
  -- Where the tokens are not those of a condition, the first of the wrong kind is found in both.
  have hnone : conditionAt ts = .ok none → conditionAt us = .ok none →
      conditionAt us = .ok (found.map (Expr.mapLines g)) ∧
        (found.isSome → Akin g slack (ts.drop 3) (us.drop 3)) := by
    intro hts hus
    cases hts.symm.trans hfound
    exact ⟨hus, nofun⟩
  match ts, h, hline, hfound, hnone with
  | [], .nil, _, _, hnone => exact hnone rfl rfl
  | first :: rest, h, hline, hfound, hnone =>
    by_cases hf : first.kind = .commandStart
    case neg =>
      obtain ⟨u₁, us, rfl, h₁, -⟩ := h.uncons
      exact hnone (conditionAt_of_kind rest hf) (conditionAt_of_kind us (h₁.kind ▸ hf))
    obtain ⟨u₁, us, rfl, h₁, -, h⟩ := h.uncons_of_kind hf (by decide)
    match rest, h, hline, hfound, hnone with
    | [], .nil, _, _, hnone => exact hnone rfl rfl
    | command :: rest, h, hline, hfound, hnone =>
      by_cases hc : command.kind = .text
      case neg =>
        obtain ⟨u₂, us, rfl, h₂, -⟩ := h.uncons
        exact hnone (conditionAt_of_second rest hc) (conditionAt_of_second us (h₂.kind ▸ hc))
      obtain ⟨u₂, us, rfl, h₂, htext, h⟩ := h.uncons_of_kind hc (by decide)
      match rest, h, hline, hfound, hnone with
      | [], .nil, _, _, hnone => exact hnone rfl rfl
      | last :: rest, h, hline, hfound, hnone =>
        obtain ⟨u₃, left, rfl, h₃, hbehind⟩ := h.uncons
        by_cases hl : last.kind = .commandEnd
        case neg =>
          exact hnone (conditionAt_of_third rest hl) (conditionAt_of_third left (h₃.kind ▸ hl))
        have hnumber : last.position.line = number := by
          obtain ⟨-, hline⟩ := hline (by rw [hf]; decide)
          obtain ⟨-, hline⟩ := hline (by rw [hc]; decide)
          exact (hline (by rw [hl]; decide)).1
        rw [hnumber] at hbehind
        exact conditionAt_brackets hf hc hl h₁ h₂
          (htext hc (endsLine_cons_of_kind hl (by decide))) h₃ hbehind hfound hslack

theorem leadTokens_akin (h : Akin g slack ts us) :
    leadTokens us = leadTokens ts ∧
      Akin g slack (ts.drop (leadTokens ts)) (us.drop (leadTokens ts)) := by
  cases ts with
  | nil =>
    cases h
    exact ⟨rfl, .nil⟩
  | cons t rest =>
    obtain ⟨u, behind, rfl, ht, -⟩ := h.uncons
    have hlead : leadTokens (u :: behind) = leadTokens (t :: rest) := by
      show (if u.isBlankText then 1 else 0) = if t.isBlankText then 1 else 0
      rw [ht.isBlankText]
    refine ⟨hlead, ?_⟩
    cases hb : t.isBlankText with
    | false =>
      have hzero : leadTokens (t :: rest) = 0 := by simp [leadTokens, hb]
      rw [hzero]
      exact h
    | true =>
      have hone : leadTokens (t :: rest) = 1 := by simp [leadTokens, hb]
      have hk : t.kind = .text := by
        simp only [Token.isBlankText, Bool.and_eq_true, beq_iff_eq] at hb
        exact hb.1
      obtain ⟨_, _, heq, -, -, hrest⟩ := h.uncons_of_kind hk (by decide)
      rw [hone]
      cases heq
      exact hrest

theorem OnLine.drop_leadTokens (h : OnLine number ts) :
    OnLine number (ts.drop (leadTokens ts)) := by
  unfold leadTokens
  split
  · rename_i hb
    obtain ⟨t, rest, rfl, ht⟩ := eq_of_isBlankText hb
    have hk : t.kind = .text := by
      simp only [Token.isBlankText, Bool.and_eq_true, beq_iff_eq] at ht
      exact ht.1
    exact (h (by rw [hk]; decide)).2
  · exact h

theorem trailingCondition_akin {found : Option Expr} {k : Nat} (h : Akin g slack ts us)
    (hline : OnLine number ts) (hfound : trailingCondition ts = .ok (found, k))
    (hslack : found.isSome → ¬slack number) :
    trailingCondition us = .ok (found.map (Expr.mapLines g), k) ∧
      Akin g slack (ts.drop k) (us.drop k) := by
  obtain ⟨hlead, hakin⟩ := leadTokens_akin h
  rw [trailingCondition_eq] at hfound
  obtain ⟨found', hcondition, heq⟩ := exists_of_map_eq_ok hfound
  obtain ⟨rfl, rfl⟩ := Prod.mk.inj heq
  obtain ⟨hother, hdrop⟩ := conditionAt_akin hakin hline.drop_leadTokens hcondition hslack
  constructor
  · rw [trailingCondition_eq, hlead, hother]
    simp [Except.map]
  · split
    · rename_i hsome
      rw [← List.drop_drop, ← List.drop_drop]
      exact hdrop hsome
    · exact h

theorem conditionAt_of_endsLine (h : endsLine ts = true) : conditionAt ts = .ok none := by
  cases ts with
  | nil => rfl
  | cons t rest =>
    refine conditionAt_of_kind rest fun hk => ?_
    rw [endsLine_cons_of_kind hk (by decide)] at h
    cases h

theorem trailingCondition_of_endsLine (h : endsLine ts = true) :
    trailingCondition ts = .ok (none, 0) := by
  have hzero : leadTokens ts = 0 := by
    refine if_neg fun hb => ?_
    obtain ⟨t, rest, rfl, ht⟩ := eq_of_isBlankText hb
    rw [isBlankText_endsLine ht] at h
    cases h
  rw [trailingCondition_eq, hzero, List.drop_zero, conditionAt_of_endsLine h]
  rfl

theorem trailingCondition_of_blank (hb : t.isBlankText = true) (h : endsLine ts = true) :
    trailingCondition (t :: ts) = .ok (none, 0) := by
  have hone : leadTokens (t :: ts) = 1 := by simp [leadTokens, hb]
  rw [trailingCondition_eq, hone, List.drop_one, List.tail_cons, conditionAt_of_endsLine h]
  rfl

theorem trailingCondition_behind {found : Option Expr} {k : Nat}
    (h : Behind g slack number ts us) (hline : OnLine number ts)
    (hfound : trailingCondition ts = .ok (found, k)) (hslack : found.isSome → ¬slack number) :
    trailingCondition us = .ok (found.map (Expr.mapLines g), k) ∧
      ∃ vs, Akin g slack (ts.drop k) vs ∧
        ∀ (e : BodyEnd) (a : Assembly), a.read e (us.drop k) = a.read e vs := by
  cases h with
  | same akin =>
    obtain ⟨hother, hdrop⟩ := trailingCondition_akin akin hline hfound hslack
    exact ⟨hother, _, hdrop, fun _ _ => rfl⟩
  | @padded blank vs line pad ends akin =>
    cases (trailingCondition_of_endsLine ends).symm.trans hfound
    refine ⟨trailingCondition_of_blank pad (akin.endsLine_eq.trans ends), vs, akin, fun e a => ?_⟩
    exact a.read_blankText e pad vs

theorem lineBreakTokens_akin (h : Akin g slack ts us) :
    lineBreakTokens us = lineBreakTokens ts ∧
      Akin g slack (ts.drop (lineBreakTokens ts).1) (us.drop (lineBreakTokens ts).1) := by
  cases ts with
  | nil =>
    cases h
    exact ⟨rfl, .nil⟩
  | cons t rest =>
    by_cases hk : t.kind = .newline
    case neg =>
      obtain ⟨u, behind, rfl, ht, -⟩ := h.uncons
      rw [lineBreakTokens_of_kind rest hk, lineBreakTokens_of_kind behind (ht.kind ▸ hk)]
      exact ⟨rfl, h⟩
    obtain ⟨u, behind, rfl, ht, -, hrest⟩ := h.uncons_of_kind hk (by decide)
    have hu : u.kind = .newline := ht.kind.trans hk
    cases rest with
    | nil =>
      cases hrest
      simp only [lineBreakTokens, hk, hu, if_true]
      exact ⟨trivial, .nil⟩
    | cons next rest =>
      by_cases hi : next.kind = .indent
      · obtain ⟨v, behind, rfl, hv, -, hrest⟩ := hrest.uncons_of_kind hi (by decide)
        simp only [lineBreakTokens, hk, hu, hv.kind, hi, if_true]
        exact ⟨trivial, hrest⟩
      · obtain ⟨v, left, rfl, hv, -⟩ := hrest.uncons
        simp only [lineBreakTokens, hk, hu, hv.kind, hi, if_true, if_false]
        exact ⟨trivial, hrest⟩

end

namespace Statement

def isConditioned : Statement → Bool
  | .option _ _ _ condition => condition.isSome
  | .shortcut _ _ condition _ => condition.isSome
  | _ => false

/-- The lines of the options with a condition, at every depth. -/
def conditionedLines (ss : List Statement) : List Nat :=
  ((blockWithin ss).filter isConditioned).map line

def branchesConditionedLines (bs : List Branch) : List Nat :=
  ((branchesWithin bs).filter isConditioned).map line

def conditionedLine (line : Nat) (condition : Option Expr) : List Nat :=
  if condition.isSome then [line] else []

@[simp] theorem conditionedLines_append (a b : List Statement) :
    conditionedLines (a ++ b) = conditionedLines a ++ conditionedLines b := by
  simp only [conditionedLines, blockWithin_append, List.filter_append, List.map_append]

@[simp] theorem branchesConditionedLines_append (a b : List Branch) :
    branchesConditionedLines (a ++ b) =
      branchesConditionedLines a ++ branchesConditionedLines b := by
  simp only [branchesConditionedLines, branchesWithin_append, List.filter_append, List.map_append]

@[simp] theorem conditionedLines_nil : conditionedLines [] = [] := rfl

@[simp] theorem branchesConditionedLines_nil : branchesConditionedLines [] = [] := rfl

@[simp] theorem conditionedLines_shortcut (number : Nat) (label : String)
    (condition : Option Expr) (body : List Statement) :
    conditionedLines [.shortcut number label condition body] =
      conditionedLine number condition ++ conditionedLines body := by
  cases condition <;>
    simp [conditionedLines, conditionedLine, blockWithin, within, List.filter_cons, isConditioned,
      line]

@[simp] theorem conditionedLines_option (number : Nat) (label destination : String)
    (condition : Option Expr) :
    conditionedLines [.option number label destination condition] =
      conditionedLine number condition := by
  cases condition <;>
    simp [conditionedLines, conditionedLine, blockWithin, within, List.filter_cons, isConditioned,
      line]

@[simp] theorem conditionedLines_conditional (number : Nat) (branches : List Branch) :
    conditionedLines [.conditional number branches] = branchesConditionedLines branches := by
  simp [conditionedLines, branchesConditionedLines, blockWithin, within, isConditioned]

@[simp] theorem branchesConditionedLines_singleton (number : Nat) (condition : Option Expr)
    (body : List Statement) :
    branchesConditionedLines [.mk number condition body] = conditionedLines body := by
  simp [conditionedLines, branchesConditionedLines, branchesWithin]

end Statement

open Statement (conditionedLines branchesConditionedLines conditionedLine)

def Enclosing.conditioned : Enclosing → List Nat
  | .shortcut line _ condition before => conditionedLines before ++ conditionedLine line condition
  | .conditional _ branches _ _ before =>
    conditionedLines before ++ branchesConditionedLines branches

def Item.conditioned : Item → List Nat
  | .statement s => conditionedLines [s]
  | .shortcut line _ condition => conditionedLine line condition
  | _ => []

namespace Assembly

def aroundConditioned : List Enclosing → List Nat
  | [] => []
  | enclosing :: around => aroundConditioned around ++ enclosing.conditioned

def conditioned (a : Assembly) : List Nat :=
  aroundConditioned a.around ++ conditionedLines a.block

variable {a b : Assembly} {t : Token} {item : Item}

theorem gathers_conditioned :
    Gathers conditionedLines Enclosing.conditioned aroundConditioned Item.conditioned where
  block_nil := rfl
  around_nil := rfl
  around_cons _ _ := rfl
  silent := ⟨rfl, rfl, rfl⟩
  push _ _ := by simp [Item.conditioned]
  shortcut _ _ _ _ := rfl
  close _ _ _ _ _ := by simp [Enclosing.conditioned]
  ifStart _ _ _ := rfl
  next _ _ _ _ _ _ _ := by simp [Enclosing.conditioned, Item.conditioned]
  ends _ _ _ _ _ _ _ := by simp [Enclosing.conditioned, Item.conditioned]

theorem conditioned_add (h : a.add t item = .ok b) :
    b.conditioned = a.conditioned ++ item.conditioned :=
  gathers_conditioned.add h

theorem conditioned_subset_read {e : BodyEnd} {tokens : List Token} {found : List Statement}
    (h : a.read e tokens = .ok found) : a.conditioned ⊆ conditionedLines found :=
  (gathers_conditioned.read h).subset

end Assembly

/-! ### Items -/

/-- Each token stands on the line of those in front of it, up to the next line break. -/
def Aligned : List Token → Prop
  | [] => True
  | t :: ts => (t.kind ∈ TokenKind.ofLine → OnLine t.position.line ts) ∧ Aligned ts

theorem Aligned.drop {ts : List Token} (h : Aligned ts) (n : Nat) : Aligned (ts.drop n) := by
  induction n generalizing ts with
  | zero => exact h
  | succ n ih =>
    cases ts with
    | nil => exact h
    | cons t ts => exact ih h.2

/-- The second item does on other lines what the first one does. -/
def Item.Follows (g : Nat → Nat) (item other : Item) : Prop :=
  ∀ {a b : Assembly} {t u : Token}, a.add t item = .ok b →
    (a.relocate g []).add u other = .ok (b.relocate g [])

theorem Item.follows_mapLines (g : Nat → Nat) (item : Item) : item.Follows g (item.mapLines g) :=
  fun h => Assembly.add_relocate h

theorem Directive.follows_item {g : Nat → Nat} {t u command other : Token} (d : Directive)
    (hl : u.position.line = g t.position.line) (ht : other.text = command.text) :
    (d.item t command).Follows g ((d.mapLines g).item u other) := by
  cases d with
  | statement s => exact Item.follows_mapLines g _
  | ifStart condition =>
    simp only [Directive.item, Directive.mapLines, hl]
    exact Item.follows_mapLines g _
  | clause kind =>
    intro a b _ _ h
    simp only [Directive.item, Directive.mapLines, ht]
    exact Assembly.clause_eq_ok_iff.2 ((Assembly.clause_eq_ok_iff.1 h).relocate _ hl)

section

variable {g : Nat → Nat} {slack : Nat → Prop} {e e' : BodyEnd} {t u : Token}
  {rest us : List Token} {item : Item} {n : Nat}

/-- The item is read from tokens akin, and tokens akin are left. -/
def ReadsAkin (g : Nat → Nat) (slack : Nat → Prop) (item : Item) (left : List Token) (e' : BodyEnd)
    (u : Token) (us : List Token) : Prop :=
  ∃ other k vs, readItem e' u us = .ok (other, k) ∧ item.Follows g other ∧ Akin g slack left vs ∧
    ∀ a : Assembly, a.read e' (us.drop k) = a.read e' vs

theorem readsAkin_alone {other : Item} (hread : readItem e' u us = .ok (other, 0))
    (hf : item.Follows g other) (h : Akin g slack rest us) :
    ReadsAkin g slack item rest e' u us :=
  ⟨other, 0, us, hread, hf, h, fun _ => rfl⟩

theorem readsAkin_option (hk : t.kind = .optionStart) (ht : t.Akin g u)
    (h : Akin g slack rest us) (hline : OnLine t.position.line rest)
    (hread : OptionRead t rest item n) (hslack : ∀ number ∈ item.conditioned, ¬slack number) :
    ReadsAkin g slack item (rest.drop n) e' u us := by
  have hu : ∀ {tokens : List Token} {other : Item} {k : Nat}, OptionRead u tokens other k →
      readItem e' u tokens = .ok (other, k) := by
    intro tokens other k ho
    unfold readItem
    rw [ht.kind, hk]
    exact readOption_of_optionRead ho e'
  have hnumber : u.position.line = g t.position.line := ht.line (by rw [hk]; decide)
  cases hread with
  | @link label close rest k text ne_nil closing condition =>
    obtain ⟨label', us, rfl, hlabel, -, h⟩ := h.uncons_of_kind text (by decide)
    obtain ⟨close', us, rfl, hclose, hbehind⟩ := h.uncons
    obtain ⟨-, hline⟩ := hline (by rw [text]; decide)
    obtain ⟨hsame, hline⟩ := hline (by rw [closing]; decide)
    have htrim : Text.trim label'.text = Text.trim label.text :=
      hlabel.trim (by rw [text]; decide)
    rw [hsame] at hbehind
    obtain ⟨hcondition, -⟩ := trailingCondition_behind hbehind hline condition nofun
    obtain ⟨vs, hakin, hbehind⟩ := hbehind.read
    refine ⟨_, 2, vs, hu (.link (hlabel.kind.trans text) ?_ (hclose.kind.trans closing) hcondition),
      ?_, hakin, hbehind e'⟩
    · rw [htrim]
      exact ne_nil
    · rw [hnumber, htrim]
      exact Item.follows_mapLines g _
  | @option label bar target close rest found k text ne_nil separator destination closing
      condition =>
    obtain ⟨label', us, rfl, hlabel, -, h⟩ := h.uncons_of_kind text (by decide)
    obtain ⟨bar', us, rfl, hbar, -, h⟩ := h.uncons_of_kind separator (by decide)
    obtain ⟨target', us, rfl, htarget, -, h⟩ := h.uncons_of_kind destination (by decide)
    obtain ⟨close', us, rfl, hclose, hbehind⟩ := h.uncons
    obtain ⟨-, hline⟩ := hline (by rw [text]; decide)
    obtain ⟨-, hline⟩ := hline (by rw [separator]; decide)
    obtain ⟨-, hline⟩ := hline (by rw [destination]; decide)
    obtain ⟨hsame, hline⟩ := hline (by rw [closing]; decide)
    have htrim : Text.trim label'.text = Text.trim label.text :=
      hlabel.trim (by rw [text]; decide)
    have hfirm : found.isSome → ¬slack t.position.line := fun hfound =>
      hslack _ (by simp [Item.conditioned, conditionedLine, hfound])
    rw [hsame] at hbehind
    obtain ⟨hcondition, vs, hakin, hbehind⟩ :=
      trailingCondition_behind hbehind hline condition hfirm
    refine ⟨_, 4 + k, vs, hu (.option (hlabel.kind.trans text) ?_ (hbar.kind.trans separator)
      (htarget.kind.trans destination) (hclose.kind.trans closing) hcondition), ?_, ?_, ?_⟩
    · rw [htrim]
      exact ne_nil
    · rw [hnumber, htrim, htarget.trim (by rw [destination]; decide)]
      exact Item.follows_mapLines g _
    · rw [Nat.add_comm]
      exact hakin
    · rw [Nat.add_comm]
      exact hbehind e'

theorem readsAkin_command (hk : t.kind = .commandStart) (ht : t.Akin g u)
    (h : Akin g slack rest us) (hread : CommandRead t rest item n) :
    ReadsAkin g slack item (rest.drop n) e' u us := by
  have hnumber : u.position.line = g t.position.line := ht.line (by rw [hk]; decide)
  cases hread with
  | @read command close rest d text closing directive =>
    obtain ⟨command', us, rfl, hcommand, htext, h⟩ := h.uncons_of_kind text (by decide)
    obtain ⟨close', us, rfl, hclose, hbehind⟩ := h.uncons
    have hsame := htext text (endsLine_cons_of_kind closing (by decide))
    have hdirective := readDirective_moved hsame (hcommand.line (by rw [text]; decide)) directive
    rw [← hnumber] at hdirective
    obtain ⟨vs, hakin, hbehind⟩ := hbehind.read
    exact ⟨_, 2, vs, readItem_command e' us (ht.kind.trans hk) (hcommand.kind.trans text)
      (hclose.kind.trans closing) hdirective, d.follows_item hnumber hsame, hakin, hbehind e'⟩

theorem readsAkin_shortcut (hk : t.kind = .shortcutMarker) (ht : t.Akin g u)
    (h : Akin g slack rest us) (hline : OnLine t.position.line rest)
    (hread : ShortcutHead t rest item n) (hslack : ∀ number ∈ item.conditioned, ¬slack number) :
    ReadsAkin g slack item (rest.drop n) e' u us := by
  have hnumber : u.position.line = g t.position.line := ht.line (by rw [hk]; decide)
  cases hread with
  | @read label rest found k m opens text ne_nil condition line breaks =>
    obtain ⟨label', us, rfl, hlabel, -, h⟩ := h.uncons_of_kind text (by decide)
    obtain ⟨-, hline⟩ := hline (by rw [text]; decide)
    have htrim : Text.trim label'.text = Text.trim label.text :=
      hlabel.trim (by rw [text]; decide)
    have hfirm : found.isSome → ¬slack t.position.line := by
      refine fun hfound => hslack _ ?_
      cases opens <;> simp [shortcutItem, Item.conditioned, conditionedLine, hfound]
    obtain ⟨hcondition, hakin⟩ := trailingCondition_akin h hline condition hfirm
    obtain ⟨hbreaks, hbehind⟩ := lineBreakTokens_akin hakin
    rw [breaks] at hbreaks hbehind
    have hhead : ShortcutHead u (label' :: us)
        (shortcutItem u label' (found.map (Expr.mapLines g)) opens) (1 + k + m) := by
      refine .read (hlabel.kind.trans text) ?_ hcondition (hakin.endsLine_eq.trans line) hbreaks
      rw [htrim]
      exact ne_nil
    have hitem : shortcutItem u label' (found.map (Expr.mapLines g)) opens =
        (shortcutItem t label found opens).mapLines g := by
      cases opens <;> simp only [shortcutItem, hnumber, htrim] <;> rfl
    have hdrop : ∀ (first : Token) (ts : List Token),
        (first :: ts).drop (1 + k + m) = (ts.drop k).drop m := by
      intro first ts
      rw [List.drop_drop, Nat.add_assoc, Nat.add_comm 1]
      rfl
    refine ⟨_, 1 + k + m, (us.drop k).drop m, ?_, hitem ▸ Item.follows_mapLines g _, ?_,
      fun a => ?_⟩
    · unfold readItem
      rw [ht.kind, hk]
      exact readShortcut_of_shortcutHead hhead e'
    · rw [hdrop]
      exact hbehind
    · rw [hdrop]

/-- Items are read in the same way from tokens akin. -/
theorem readItem_akin (h : Akin g slack (t :: rest) us) (ha : Aligned (t :: rest))
    (hread : readItem e t rest = .ok (item, n))
    (hslack : ∀ number ∈ item.conditioned, ¬slack number) :
    ∃ u behind, us = u :: behind ∧ ReadsAkin g slack item (rest.drop n) e' u behind := by
  have halone : ∀ {kind : TokenKind} {found : Item}, t.kind = kind → kind ∉ TokenKind.closing →
      (∀ u us, t.Akin g u → readItem e' u us = .ok (found.mapLines g, 0)) →
      ∃ u behind, us = u :: behind ∧ ReadsAkin g slack found rest e' u behind := by
    intro kind found hk hn hread
    obtain ⟨u, behind, rfl, ht, -, hrest⟩ := h.uncons_of_kind hk hn
    exact ⟨u, behind, rfl, readsAkin_alone (hread u behind ht) (Item.follows_mapLines g _) hrest⟩
  cases itemRead_of_readItem hread with
  | newline hk | indent hk | dedent hk =>
    exact halone hk (by decide) fun u us ht => by simp only [readItem, ht.kind, hk]; rfl
  | blank hk hblank =>
    have hline : t.kind ∈ TokenKind.ofLine := by rw [hk]; decide
    refine halone hk (by decide) fun u us ht => ?_
    simp only [readItem, ht.kind, hk, ht.trim hline]
    exact if_pos hblank
  | text hk hblank =>
    have hline : t.kind ∈ TokenKind.ofLine := by rw [hk]; decide
    refine halone hk (by decide) fun u us ht => ?_
    simp only [readItem, ht.kind, hk, ht.trim hline, ht.line hline]
    exact if_neg hblank
  | option hk hoption =>
    obtain ⟨u, behind, rfl, ht, -, hrest⟩ := h.uncons_of_kind hk (by decide)
    have hline := ha.1 (by rw [hk]; decide)
    exact ⟨u, behind, rfl, readsAkin_option hk ht hrest hline hoption hslack⟩
  | shortcut hk hhead =>
    have hline := ha.1 (by rw [hk]; decide)
    obtain ⟨u, behind, rfl, ht, hbehind⟩ := h.uncons
    have hrest : Akin g slack rest behind := by
      cases hhead with
      | read text => exact hbehind.akin_of_endsLine (endsLine_cons_of_kind text (by decide))
    exact ⟨u, behind, rfl, readsAkin_shortcut hk ht hrest hline hhead hslack⟩
  | command hk hcommand =>
    obtain ⟨u, behind, rfl, ht, -, hrest⟩ := h.uncons_of_kind hk (by decide)
    exact ⟨u, behind, rfl, readsAkin_command hk ht hrest hcommand⟩

/-- Tokens akin are read as the same statements on the other lines. -/
theorem Assembly.read_akin {a : Assembly} {ts : List Token} {found : List Statement}
    (h : Akin g slack ts us) (ha : Aligned ts) (hread : a.read e ts = .ok found)
    (hslack : ∀ number ∈ conditionedLines found, ¬slack number) (e' : BodyEnd) :
    (a.relocate g []).read e' us = .ok (blockMapLines g found) := by
  have hfinish : ∀ {err err' : SyntaxError} {a : Assembly},
      finish err a.block a.around = .ok found →
      finish err' (lead [] a.around ++ blockMapLines g a.block) (relocateAround g [] a.around) =
        .ok ([] ++ blockMapLines g found) := fun hread => finish_relocate hread
  fun_induction read e a ts generalizing us with
  | case1 a =>
    cases h
    rw [read]
    exact hfinish hread
  | case2 a t rest hk =>
    obtain ⟨u, behind, rfl, ht, -⟩ := h.uncons
    rw [read, if_pos (ht.kind.trans hk)]
    exact hfinish hread
  | case3 => cases hread
  | case4 => cases hread
  | case5 a t rest _ item n hitem b hadd ih =>
    have hconditioned : ∀ number ∈ item.conditioned, ¬slack number := by
      intro number hmem
      refine hslack number (conditioned_subset_read hread ?_)
      rw [conditioned_add hadd]
      exact List.mem_append_right _ hmem
    obtain ⟨u, behind, rfl, other, k, vs, hother, hfollows, hakin, hleft⟩ :=
      readItem_akin h ha hitem hconditioned
    -- Both readers are behind the item, and what they have read differs in lines only.
    rw [read_item hother (hfollows hadd), hleft]
    exact ih hakin (ha.2.drop n) hread

end

end Dialogue
