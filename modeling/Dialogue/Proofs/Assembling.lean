import Dialogue.Proofs.Locality

/-!
# Statements put together line by line

Reading the lines of a body takes the statements from one state to another, and it
does so on any lines, behind any statements, and whatever follows the lines
(`Assembly.exists_reads`). Shortcut options that are open are matched by levels of
indentation, so the markers that close all levels finish the statements as the end
of a body would (`Assembly.read_closing`).
-/

namespace Dialogue
open Statement (blockMapLines branchesMapLines)

namespace Assembly

/-- What the end of a level does. -/
inductive Dedents : Assembly → Assembly → Prop
  | outside {block : List Statement} {around : List Enclosing} :
      Dedents ⟨block, around, []⟩ ⟨block, around, []⟩
  | plain {block : List Statement} {around : List Enclosing} {levels : List Opener} :
      Dedents ⟨block, around, .plain :: levels⟩ ⟨block, around, levels⟩
  | shortcut {block before : List Statement} {around : List Enclosing} {levels : List Opener}
      {line : Nat} {label : String} {condition : Option Expr} :
      Dedents ⟨block, .shortcut line label condition before :: around, .shortcut :: levels⟩
        ⟨before ++ [.shortcut line label condition block], around, levels⟩

/-- What a clause does: it ends a conditional, or begins its next branch. -/
inductive Continues (c : Clause) : Assembly → Assembly → Prop
  | ends {block before : List Statement} {around : List Enclosing} {levels : List Opener}
      {line branchLine : Nat} {branches : List Branch} {condition : Option Expr}
      (kind : c.kind = .endIf) :
      Continues c ⟨block, .conditional line branches branchLine condition before :: around, levels⟩
        ⟨before ++ [.conditional line (branches ++ [.mk branchLine condition block])], around,
          levels⟩
  | next {block before : List Statement} {around : List Enclosing} {levels : List Opener}
      {line branchLine : Nat} {branches : List Branch} {condition : Expr} (found : Option Expr)
      (kind : c.kind = found.elim .otherwise .elseIf) :
      Continues c
        ⟨block, .conditional line branches branchLine (some condition) before :: around, levels⟩
        ⟨[], .conditional line (branches ++ [.mk branchLine (some condition) block])
          c.position.line found before :: around, levels⟩

variable {a b : Assembly} {t : Token} {c : Clause}

theorem dedent_eq_ok_iff : a.dedent t = .ok b ↔ Dedents a b := by
  constructor
  · intro h
    obtain ⟨block, around, levels⟩ := a
    match levels, around with
    | [], _ =>
      cases h
      exact .outside
    | .plain :: levels, _ =>
      cases h
      exact .plain
    | .shortcut :: levels, .shortcut line label condition before :: around =>
      cases h
      exact .shortcut
    | .shortcut :: levels, .conditional .. :: around => cases h
    | .shortcut :: levels, [] => cases h
  · intro h
    cases h <;> rfl

theorem clause_eq_ok_iff : a.clause c = .ok b ↔ Continues c a b := by
  constructor
  · intro h
    obtain ⟨block, around, levels⟩ := a
    obtain ⟨kind, content, position⟩ := c
    match around with
    | [] => cases h
    | .shortcut .. :: around => cases h
    | .conditional line branches branchLine condition before :: around =>
      match kind, condition with
      | .endIf, _ =>
        cases h
        exact .ends rfl
      | .elseIf e, none => cases h
      | .otherwise, none => cases h
      | .elseIf e, some _ =>
        cases h
        exact .next (some e) rfl
      | .otherwise, some _ =>
        cases h
        exact .next none rfl
  · intro h
    cases h with
    | ends kind => simp only [clause, kind]
    | next found kind =>
      cases found <;> simp only [Option.elim_none, Option.elim_some] at kind <;>
        simp only [clause, kind]

end Assembly

/-! ### Other lines, and statements in front -/

/-- The construct on other lines, with more statements in front of it. -/
def Enclosing.relocate (f : Nat → Nat) (first : List Statement) : Enclosing → Enclosing
  | .shortcut line label condition before =>
    .shortcut (f line) label (condition.map (Expr.mapLines f)) (first ++ blockMapLines f before)
  | .conditional line branches branchLine condition before =>
    .conditional (f line) (branchesMapLines f branches) (f branchLine)
      (condition.map (Expr.mapLines f)) (first ++ blockMapLines f before)

namespace Assembly

/-- The part of `first` that goes in front of a block inside the given constructs: only the
outermost block begins with it. -/
def lead (first : List Statement) : List Enclosing → List Statement
  | [] => first
  | _ :: _ => []

def relocateAround (f : Nat → Nat) (first : List Statement) : List Enclosing → List Enclosing
  | [] => []
  | enclosing :: around =>
    enclosing.relocate f (lead first around) :: relocateAround f first around

def relocate (f : Nat → Nat) (first : List Statement) (a : Assembly) : Assembly :=
  ⟨lead first a.around ++ blockMapLines f a.block, relocateAround f first a.around, a.levels⟩

variable {f : Nat → Nat} {first : List Statement} {a b : Assembly} {t t' : Token} {item : Item}

theorem relocateAround_id (around : List Enclosing) : relocateAround id [] around = around := by
  induction around with
  | nil => rfl
  | cons enclosing around ih =>
    have hlead : lead [] around = [] := by cases around <;> rfl
    have hid : enclosing.relocate id [] = enclosing := by
      cases enclosing with
      | shortcut line label condition before =>
        rw [Enclosing.relocate, Statement.conditionMapLines_id, Statement.blockMapLines_id, id,
          List.nil_append]
      | conditional line branches branchLine condition before =>
        rw [Enclosing.relocate, Statement.conditionMapLines_id, Statement.blockMapLines_id,
          Statement.branchesMapLines_id, id, id, List.nil_append]
    rw [relocateAround, ih, hlead, hid]

theorem relocate_id (a : Assembly) : a.relocate id [] = a := by
  have hlead : lead [] a.around = [] := by cases a.around <;> rfl
  rw [relocate, relocateAround_id, hlead, Statement.blockMapLines_id, List.nil_append]

theorem Dedents.relocate (h : Dedents a b) : Dedents (a.relocate f first) (b.relocate f first) := by
  cases h with
  | outside => exact .outside
  | plain => exact .plain
  | shortcut =>
    simp only [Assembly.relocate, Statement.blockMapLines_append, Statement.blockMapLines,
      Statement.mapLines, ← List.append_assoc]
    exact .shortcut

theorem Continues.relocate {c : Clause} (h : Continues c a b) (position : Position)
    (hp : position.line = f c.position.line) :
    Continues ⟨c.kind.mapLines f, c.content, position⟩ (a.relocate f first)
      (b.relocate f first) := by
  cases h with
  | ends kind =>
    simp only [Assembly.relocate, Statement.blockMapLines_append, Statement.blockMapLines,
      Statement.mapLines, Statement.branchesMapLines_append, Statement.branchesMapLines,
      ← List.append_assoc]
    refine .ends ?_
    rw [kind]
    rfl
  | next found kind =>
    simp only [Assembly.relocate, relocateAround, Enclosing.relocate, Statement.blockMapLines,
      Statement.branchesMapLines_append, Statement.branchesMapLines, ← hp]
    refine .next (found.map (Expr.mapLines f)) ?_
    rw [kind]
    cases found <;> rfl

theorem add_relocate (h : a.add t item = .ok b) :
    (a.relocate f first).add t' (item.mapLines f) = .ok (b.relocate f first) := by
  cases item with
  | space | indent =>
    cases h
    rfl
  | dedent => exact dedent_eq_ok_iff.2 (dedent_eq_ok_iff.1 h).relocate
  | statement s =>
    cases h
    simp only [Item.mapLines, add, relocate, push, Statement.blockMapLines_append,
      Statement.blockMapLines, List.append_assoc]
  | shortcut line label condition =>
    cases h
    rfl
  | ifStart line condition =>
    cases h
    rfl
  | clause c => exact clause_eq_ok_iff.2 ((clause_eq_ok_iff.1 h).relocate _ rfl)

theorem finish_relocate {e e' : SyntaxError} {block found : List Statement}
    {around : List Enclosing} (h : finish e block around = .ok found) :
    finish e' (lead first around ++ blockMapLines f block) (relocateAround f first around) =
      .ok (first ++ blockMapLines f found) := by
  induction around generalizing block with
  | nil =>
    cases h
    rfl
  | cons enclosing around ih =>
    cases enclosing with
    | conditional => cases h
    | shortcut line label condition before =>
      have hrest := ih h
      rw [Statement.blockMapLines_append, ← List.append_assoc] at hrest
      exact hrest

def isShortcut : Enclosing → Bool
  | .shortcut .. => true
  | .conditional .. => false

/-- As many shortcut options are open as levels of theirs. -/
def Matched (a : Assembly) : Prop := a.levels.count .shortcut = a.around.countP isShortcut

theorem Matched.dedents (hm : a.Matched) (h : Dedents a b) : b.Matched := by
  cases h with
  | outside => exact hm
  | plain => simpa [Matched] using hm
  | shortcut => simpa [Matched, isShortcut, List.countP_cons] using hm

theorem Matched.continues (hm : a.Matched) {c : Clause} (h : Continues c a b) : b.Matched := by
  cases h <;> simpa [Matched, isShortcut] using hm

theorem Matched.add (hm : a.Matched) (h : a.add t item = .ok b) : b.Matched := by
  cases item with
  | space | statement =>
    cases h
    exact hm
  | indent =>
    cases h
    simpa [Matched] using hm
  | dedent => exact hm.dedents (dedent_eq_ok_iff.1 h)
  | shortcut line label condition =>
    cases h
    simpa [Matched, nest, isShortcut, List.countP_cons] using hm
  | ifStart line condition =>
    cases h
    simpa [Matched, nest, isShortcut] using hm
  | clause c => exact hm.continues (clause_eq_ok_iff.1 h)

/-- The levels among the statements follow those of the tokens. -/
theorem add_levels {depth : Nat} (h : a.add t item = .ok b)
    (hs : item.Shifts a.levels.length depth) : b.levels.length = depth := by
  cases item with
  | space | statement | ifStart | indent | shortcut =>
    cases h
    exact hs.symm
  | clause c =>
    have hc := clause_eq_ok_iff.1 h
    cases hc <;> exact hs.symm
  | dedent =>
    have hd := dedent_eq_ok_iff.1 h
    cases hd with
    | outside => cases hs
    | plain | shortcut => exact Nat.succ.inj hs

/-! ### Whole lines -/

/-- Reading `ts` takes the statements from `a` to `b`, wherever it happens. -/
structure Reads (ts : List Token) (a b : Assembly) : Prop where
  mode : modeAfter .base ts = .base
  matched : a.Matched → b.Matched
  closes : ∀ rest, Closes a.levels.length (ts ++ rest) → Closes b.levels.length rest
  read : ∀ f first e z, Breaks z →
    (a.relocate f first).read e (ts.map (Token.mapLine f) ++ z) = (b.relocate f first).read e z

theorem reads_nil (a : Assembly) : Reads [] a a :=
  ⟨rfl, id, fun _ hc => hc, fun _ _ _ _ _ => rfl⟩

theorem reads_cons {used behind : List Token} {d : Assembly} (htakes : Takes t used item)
    (ha : a.add t item = .ok b) (hrest : Reads behind b d) (hread : Leaves t used behind item) :
    Reads (t :: (used ++ behind)) a d := by
  refine ⟨?_, fun hm => hrest.matched (hm.add ha), fun rest hc => ?_, fun f first e z hz => ?_⟩
  · rw [← List.cons_append, modeAfter_append, htakes.mode, hrest.mode]
  · rw [List.cons_append, List.append_assoc] at hc
    obtain ⟨depth, hshift, hbehind⟩ := htakes.closes _ _ hc
    apply hrest.closes
    rw [add_levels ha hshift]
    exact hbehind
  · obtain ⟨n, hitem, hdrop⟩ := hread f e z hz
    calc (a.relocate f first).read e ((t :: (used ++ behind)).map (Token.mapLine f) ++ z)
      _ = (b.relocate f first).read e (((used ++ behind).map (Token.mapLine f) ++ z).drop n) :=
        read_item hitem (add_relocate ha)
      _ = (b.relocate f first).read e (behind.map (Token.mapLine f) ++ z) := hdrop _
      _ = (d.relocate f first).read e z := hrest.read f first e z hz

/-- The items in front of the end of a line are read in the same way anywhere. -/
theorem exists_reads {e : BodyEnd} {x z : List Token} {found : List Statement} (hz : Breaks z)
    (hx : ∀ t ∈ x, t.kind ≠ .endOfInput) (h : a.read e (x ++ z) = .ok found) :
    ∃ b, Reads x a b := by
  -- An item takes as many tokens as it likes, so the induction is on their number.
  induction hn : x.length using Nat.strong_induction_on generalizing x a with
  | _ n ih =>
    cases x with
    | nil => exact ⟨a, reads_nil a⟩
    | cons t x =>
      rw [List.cons_append, read, if_neg (hx t List.mem_cons_self)] at h
      split at h
      · cases h
      · rename_i item k hitem
        split at h
        · cases h
        · rename_i b hadd
          obtain ⟨used, behind, rfl, htakes, hread⟩ := readsHere_readItem hz hitem
          have hrest : b.read e (behind ++ z) = .ok found := by
            obtain ⟨k', hitem', hdrop⟩ := hread id e z hz
            rw [map_mapLine_id] at hitem' hdrop
            have hk : k' = k := by
              have hsame := hitem'.symm.trans hitem
              simp only [Except.ok.injEq, Prod.mk.injEq] at hsame
              exact hsame.2
            rw [← map_mapLine_id behind, ← hdrop, hk]
            exact h
          have hshort : behind.length < n := by
            simp only [List.length_cons, List.length_append] at hn
            omega
          have hkinds : ∀ u ∈ behind, u.kind ≠ .endOfInput := fun u hu =>
            hx u (List.mem_cons_of_mem _ (List.mem_append_right _ hu))
          obtain ⟨d, hd⟩ := ih _ hshort hkinds hrest rfl
          exact ⟨d, reads_cons htakes hadd hd hread⟩

theorem Reads.read_self {x z : List Token} (h : Reads x a b) (hz : Breaks z) (e : BodyEnd) :
    a.read e (x ++ z) = b.read e z := by
  have hread := h.read id [] e z hz
  rw [relocate_id, relocate_id, map_mapLine_id] at hread
  exact hread

theorem eq_of_read_last {e : BodyEnd} {last : Token} {found : List Statement} (hm : a.Matched)
    (hl : a.levels = []) (hk : last.kind = .endOfInput) (h : a.read e [last] = .ok found) :
    a = ⟨found, [], []⟩ := by
  obtain ⟨block, around, levels⟩ := a
  obtain rfl : levels = [] := hl
  rw [read, if_pos hk] at h
  cases around with
  | nil =>
    cases h
    rfl
  | cons enclosing around =>
    cases enclosing with
    | conditional => cases h
    | shortcut => simp [Matched, isShortcut, List.countP_cons] at hm

theorem read_closing {e : BodyEnd} {n : Nat} {last : Token} {found : List Statement}
    (hm : a.Matched) (hl : a.levels.length = n) (ht : t.kind = .dedent)
    (hk : last.kind = .endOfInput) (h : a.read e (.replicate n t ++ [last]) = .ok found)
    (ht' : t'.kind = .dedent) (e' : BodyEnd) (rest : List Token) :
    a.read e' (.replicate n t' ++ rest) = (⟨found, [], []⟩ : Assembly).read e' rest := by
  induction n generalizing a with
  | zero =>
    rw [eq_of_read_last hm (List.length_eq_zero_iff.1 hl) hk h]
    rfl
  | succ n ih =>
    have hne : t.kind ≠ .endOfInput := by
      rw [ht]
      decide
    have hitem : readItem e t (.replicate n t ++ [last]) = .ok (.dedent, 0) := by
      simp only [readItem, ht]
    rw [List.replicate_succ, List.cons_append, read, if_neg hne, hitem] at h
    simp only at h
    split at h
    · cases h
    · rename_i b hadd
      have hb : b.levels.length = n := add_levels hadd hl
      have hdedent : a.dedent t' = .ok b := dedent_eq_ok_iff.2 (dedent_eq_ok_iff.1 hadd)
      rw [List.replicate_succ, List.cons_append, read_dedent e' _ ht' hdedent]
      exact ih (hm.add hadd) hb h

end Assembly

end Dialogue
