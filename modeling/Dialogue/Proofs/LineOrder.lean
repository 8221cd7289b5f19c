import Dialogue.Proofs.ShortcutBodies

/-!
# The lines of a tree

Statements, branches and expressions remember the lines they come from. A walk
through the tree meets these lines in the order of the body (`Assembly.trail_read`),
since every item stands on the line of its first token. A statement shares its line
with all that belongs to itself: no command and no condition reaches over a line
break, so its expressions are read from the same line, and a conditional begins on
the line of its first branch (`Statement.LinesAgree`).
-/

namespace Dialogue

open Statement (blockWithin branchesWithin)

namespace Expr

/-- Every node of the expression, at any depth, stands on this line. -/
def StandsOn (e : Expr) (line : Nat) : Prop := ∀ inner ∈ e.within, inner.line = line

mutual

theorem standsOn_atLine (n : Nat) : ∀ e : Expr, (e.atLine n).StandsOn n
  | .literal _ _ => List.forall_mem_singleton.2 rfl
  | .var _ _ => List.forall_mem_singleton.2 rfl
  | .call _ _ args => List.forall_mem_cons.2 ⟨rfl, line_of_mem_argumentsAtLine n args⟩
  | .unary _ _ operand => List.forall_mem_cons.2 ⟨rfl, standsOn_atLine n operand⟩
  | .binary _ _ left right =>
    List.forall_mem_cons.2 ⟨rfl,
      List.forall_mem_append.2 ⟨standsOn_atLine n left, standsOn_atLine n right⟩⟩

theorem line_of_mem_argumentsAtLine (n : Nat) : ∀ es : List Expr,
    ∀ inner ∈ argumentsWithin (argumentsAtLine n es), inner.line = n
  | [] => nofun
  | e :: es =>
    List.forall_mem_append.2 ⟨standsOn_atLine n e, line_of_mem_argumentsAtLine n es⟩

end

/-- An expression that is the same with all lines replaced by one stands on that line. -/
theorem standsOn_of_mapLines {e : Expr} {n : Nat} (h : e.mapLines (fun _ => n) = e) :
    e.StandsOn n := by
  rw [← h, mapLines_const]
  exact standsOn_atLine n e

end Expr

theorem standsOn_expressionAt {t : Token} {n : Nat} {e : Expr} (h : t.expressionAt n = .ok e) :
    e.StandsOn t.position.line := by
  have hmoved := expressionAt_moved (u := t) (f := fun _ => t.position.line) rfl rfl h
  exact Expr.standsOn_of_mapLines (Except.ok.inj (hmoved.symm.trans h))

/-! ### Walks through a tree -/

namespace Statement

mutual

/-- The lines that a walk through a statement meets: its own one and those of what stands in it,
each branch of a conditional with its line in front of its statements. -/
def trail : Statement → List Nat
  | .shortcut line _ _ body => line :: blockTrail body
  | .conditional line branches => line :: branchesTrail branches
  | .text line _ | .link line _ | .option line _ _ _ | .assignment line _ _ _
  | .command line _ => [line]

def blockTrail : List Statement → List Nat
  | [] => []
  | s :: ss => s.trail ++ blockTrail ss

def branchesTrail : List Branch → List Nat
  | [] => []
  | .mk line _ body :: branches => line :: (blockTrail body ++ branchesTrail branches)

end

theorem blockTrail_append (a b : List Statement) :
    blockTrail (a ++ b) = blockTrail a ++ blockTrail b := by
  induction a with
  | nil => rfl
  | cons s ss ih => simp only [List.cons_append, blockTrail, ih, List.append_assoc]

theorem branchesTrail_append (a b : List Branch) :
    branchesTrail (a ++ b) = branchesTrail a ++ branchesTrail b := by
  induction a with
  | nil => rfl
  | cons branch bs ih =>
    cases branch
    simp only [List.cons_append, branchesTrail, ih, List.append_assoc]

end Statement

open Statement (blockTrail branchesTrail blockTrail_append branchesTrail_append)

def Enclosing.trail : Enclosing → List Nat
  | .shortcut line _ _ before => blockTrail before ++ [line]
  | .conditional line branches branchLine _ before =>
    blockTrail before ++ line :: (branchesTrail branches ++ [branchLine])

def aroundTrail : List Enclosing → List Nat
  | [] => []
  | x :: around => aroundTrail around ++ x.trail

def ClauseKind.trail (line : Nat) : ClauseKind → List Nat
  | .endIf => []
  | .elseIf _ | .otherwise => [line]

def Item.trail : Item → List Nat
  | .statement s => s.trail
  | .shortcut line _ _ => [line]
  | .ifStart line _ => [line, line]
  | .clause c => c.kind.trail c.position.line
  | .space | .indent | .dedent => []

namespace Assembly

def trail (a : Assembly) : List Nat := aroundTrail a.around ++ blockTrail a.block

variable {e : BodyEnd} {a b : Assembly} {t : Token} {item : Item}

theorem gathers_trail : Gathers blockTrail Enclosing.trail aroundTrail Item.trail where
  block_nil := rfl
  around_nil := rfl
  around_cons _ _ := rfl
  silent := ⟨rfl, rfl, rfl⟩
  push _ _ := by simp [blockTrail_append, blockTrail, Item.trail]
  shortcut _ _ _ _ := rfl
  close _ _ _ _ _ := by
    simp [blockTrail_append, blockTrail, Statement.trail, Enclosing.trail]
  ifStart _ _ _ := rfl
  next {_ found} kind _ _ _ _ _ _ := by
    cases found <;>
      simp [Enclosing.trail, branchesTrail_append, branchesTrail, Item.trail, kind,
        ClauseKind.trail]
  ends kind _ _ _ _ _ _ := by
    simp [Enclosing.trail, blockTrail_append, blockTrail, Statement.trail, branchesTrail_append,
      branchesTrail, Item.trail, kind, ClauseKind.trail]

/-- An item adds its lines behind those of what has been read. -/
theorem trail_add (h : a.add t item = .ok b) : b.trail = a.trail ++ item.trail :=
  gathers_trail.add h

end Assembly

theorem Says.trail {start command : Token} {d : Directive}
    (h : Says start.position.line command d) :
    ∀ n ∈ (d.item start command).trail, n = start.position.line := by
  cases h with
  | set | command => exact List.forall_mem_singleton.2 rfl
  | ifStart => exact List.forall_mem_cons.2 ⟨rfl, List.forall_mem_singleton.2 rfl⟩
  | elseIf => exact List.forall_mem_singleton.2 rfl
  | @otherwise kind =>
    cases kind with
    | elseIf | otherwise => exact List.forall_mem_singleton.2 rfl
    | endIf => nofun
  | endIf => nofun

theorem Taken.trail {t : Token} {item : Item} {used behind : List Token}
    (h : Taken t item used behind) : ∀ n ∈ item.trail, n = t.position.line := by
  cases h with
  | newline | blank | indent | dedent => nofun
  | text | link | option => exact List.forall_mem_singleton.2 rfl
  | @shortcut _ _ _ _ _ opens => cases opens <;> exact List.forall_mem_singleton.2 rfl
  | command _ _ _ _ said => exact said.trail

theorem Position.line_le_advance (p : Position) (cs : List Char) :
    p.line ≤ (p.advance cs).line := by
  rw [advance_line]
  omega

theorem Placed.drop {p : Position} {used rest : List Token} (h : Placed p (used ++ rest)) :
    Placed (p.advance (used.flatMap Token.text)) rest := by
  induction used generalizing p with
  | nil => exact h
  | cons u used ih =>
    rw [List.flatMap_cons, Position.advance_append]
    exact ih h.2.2

/-- The lines that reading adds do not decrease, and lie between the place of the tokens and the
place behind them. -/
theorem Assembly.trail_read {e : BodyEnd} {a : Assembly} {p : Position} {tokens : List Token}
    {ss : List Statement} (hp : Placed p tokens) (h : a.read e tokens = .ok ss) :
    ∃ more, blockTrail ss = a.trail ++ more ∧ more.Pairwise (· ≤ ·) ∧
      ∀ n ∈ more, p.line ≤ n ∧ n ≤ (p.advance (tokens.flatMap Token.text)).line := by
  fun_induction read e a tokens generalizing p with
  | case1 =>
    exact ⟨[], by rw [List.append_nil]; exact gathers_trail.finish h, .nil, List.forall_mem_nil _⟩
  | case2 =>
    exact ⟨[], by rw [List.append_nil]; exact gathers_trail.finish h, .nil, List.forall_mem_nil _⟩
  | case3 => cases h
  | case4 => cases h
  | case5 a t rest _ item n hitem b hadd ih =>
    obtain ⟨used, behind, rfl, rfl, htaken⟩ := taken_of_readItem hitem
    rw [List.drop_left] at ih h
    rw [← List.cons_append] at hp
    obtain ⟨more, hmore, hsorted, hbounds⟩ := ih hp.drop h
    rw [← Position.advance_append, ← List.flatMap_append] at hbounds
    have hhere : ∀ n ∈ item.trail, n = p.line := by
      intro n hn
      rw [htaken.trail n hn, hp.1]
    have hbelow : ∀ n ∈ more, p.line ≤ n := fun n hn =>
      Nat.le_trans (p.line_le_advance _) (hbounds n hn).1
    refine ⟨item.trail ++ more, ?_, List.pairwise_append.2 ⟨?_, hsorted, ?_⟩,
      List.forall_mem_append.2 ⟨?_, ?_⟩⟩
    · rw [hmore, trail_add hadd, List.append_assoc]
    · exact List.pairwise_of_forall_mem_list fun n hn m hm => by rw [hhere n hn, hhere m hm]
    · intro n hn m hm
      rw [hhere n hn]
      exact hbelow m hm
    · intro n hn
      rw [hhere n hn]
      exact ⟨Nat.le_refl _, p.line_le_advance _⟩
    · exact fun n hn => ⟨hbelow n hn, (hbounds n hn).2⟩

/-! ### Lines that a statement shares -/

/-- What belongs to a statement itself stands on its line: its expressions and the first branch of
a conditional. The condition of a branch stands on the line of the branch. -/
def Statement.LinesAgree : Statement → Prop
  | .option line _ _ condition => ∀ e ∈ condition, e.StandsOn line
  | .shortcut line _ condition _ => ∀ e ∈ condition, e.StandsOn line
  | .assignment line _ _ value => value.StandsOn line
  | .conditional line branches =>
    branches.head?.map Branch.line = some line ∧
      ∀ branch ∈ branches, ∀ e ∈ branch.condition, e.StandsOn branch.line
  | .text .. | .link .. | .command .. => True

/-- Lines agree in every statement of a block, at every depth. -/
def Statement.BlockLinesAgree (ss : List Statement) : Prop := ∀ s ∈ blockWithin ss, s.LinesAgree

open Statement (BlockLinesAgree)

def Enclosing.LinesAgree : Enclosing → Prop
  | .shortcut line _ condition before => (∀ e ∈ condition, e.StandsOn line) ∧ BlockLinesAgree before
  | .conditional line branches branchLine condition before =>
    (Statement.conditional line (branches ++ [.mk branchLine condition []])).LinesAgree ∧
      (∀ s ∈ branchesWithin branches, s.LinesAgree) ∧ BlockLinesAgree before

def Item.LinesAgree : Item → Prop
  | .statement s => ∀ inner ∈ s.within, inner.LinesAgree
  | .shortcut line _ condition => ∀ e ∈ condition, e.StandsOn line
  | .ifStart line condition => condition.StandsOn line
  | .clause c => ∀ e, c.kind = .elseIf e → e.StandsOn c.position.line
  | .space | .indent | .dedent => True

section

variable {p : Position} {t : Token} {tokens rest : List Token} {item : Item} {n : Nat}

theorem standsOn_trailingCondition {found : Option Expr} (hp : Placed p tokens)
    (h : trailingCondition tokens = .ok (found, n)) : ∀ e ∈ found, e.StandsOn p.line := by
  have hlead : ∃ q, Placed q (tokens.drop (leadTokens tokens)) ∧ q.line = p.line := by
    unfold leadTokens
    split
    · rename_i hblank
      obtain ⟨t, rest, rfl, ht⟩ := eq_of_isBlankText hblank
      simp only [Token.isBlankText, Bool.and_eq_true, beq_iff_eq] at ht
      obtain ⟨q, hq, hline⟩ := (show Placed p ([t] ++ rest) from hp).behind
      exact ⟨q, hq, hline (by simp [ht.1])⟩
    · exact ⟨p, hp, rfl⟩
  obtain ⟨q, hq, hline⟩ := hlead
  rw [trailingCondition_eq] at h
  obtain ⟨_, hcondition, heq⟩ := exists_of_map_eq_ok h
  obtain ⟨rfl, -⟩ := Prod.mk.inj heq
  unfold conditionAt at hcondition
  simp only at hcondition
  split at hcondition
  · rename_i first command last behind htokens
    rw [htokens] at hq
    split at hcondition
    · rename_i hkinds
      obtain ⟨e, he, rfl⟩ := exists_of_map_eq_ok hcondition
      have hfirst : Placed q ([first] ++ command :: last :: behind) := hq
      have hcommand : command.position.line = q.line := hfirst.line_eq (by simp [hkinds.1])
      intro e' he'
      obtain rfl := Option.some.inj he'
      rw [← hline, ← hcommand]
      exact standsOn_expressionAt he
    · cases hcondition
      nofun
  · cases hcondition
    nofun

theorem OptionRead.linesAgree (hk : t.kind = .optionStart) (hp : Placed p (t :: rest))
    (h : OptionRead t rest item n) : item.LinesAgree := by
  cases h with
  | link => exact List.forall_mem_singleton.2 trivial
  | @option label bar target close behind _ _ text _ separator destination closing condition =>
    have hoption : Placed p ([t, label, bar, target, close] ++ behind) := hp
    obtain ⟨q, hq, hline⟩ := hoption.behind
    refine List.forall_mem_singleton.2 ?_
    have hcondition := standsOn_trailingCondition hq condition
    rw [hline (by simp [hk, text, separator, destination, closing]), ← hp.1] at hcondition
    exact hcondition

theorem ShortcutHead.linesAgree (hk : t.kind = .shortcutMarker) (hp : Placed p (t :: rest))
    (h : ShortcutHead t rest item n) : item.LinesAgree := by
  cases h with
  | @read label behind _ _ _ opens text _ condition =>
    have hlabel : Placed p ([t, label] ++ behind) := hp
    obtain ⟨q, hq, hline⟩ := hlabel.behind
    have hcondition := standsOn_trailingCondition hq condition
    rw [hline (by simp [hk, text]), ← hp.1] at hcondition
    cases opens with
    | true => exact hcondition
    | false => exact List.forall_mem_singleton.2 hcondition

/-- A command that stands on the line of its bracket has all its expressions there. -/
theorem mapLines_readDirective {line : Nat} {command : Token} {d : Directive}
    (hl : command.position.line = line) (h : readDirective line command = .ok d) :
    d.mapLines (fun _ => line) = d := by
  have hmoved := readDirective_moved (u := command) (f := fun _ => line) rfl hl h
  exact Except.ok.inj (hmoved.symm.trans h)

theorem standsOn_clause {line : Nat} {kind : ClauseKind} {e : Expr}
    (h : (Directive.clause kind).mapLines (fun _ => line) = .clause kind) (hk : kind = .elseIf e) :
    e.StandsOn line := by
  subst hk
  refine Expr.standsOn_of_mapLines ?_
  simpa [Directive.mapLines, ClauseKind.mapLines] using h

theorem CommandRead.linesAgree (hk : t.kind = .commandStart) (hp : Placed p (t :: rest))
    (h : CommandRead t rest item n) : item.LinesAgree := by
  cases h with
  | @read command close behind d text _ directive =>
    have hstart : Placed p ([t] ++ command :: close :: behind) := hp
    have hline : command.position.line = t.position.line := by
      rw [hstart.line_eq (by simp [hk]), hp.1]
    have hmap := mapLines_readDirective hline directive
    cases said_of_readDirective directive with
    | set _ target op value =>
      refine List.forall_mem_singleton.2 (Expr.standsOn_of_mapLines ?_)
      simpa [Directive.mapLines, Statement.mapLines] using hmap
    | ifStart _ condition =>
      refine Expr.standsOn_of_mapLines ?_
      simpa [Directive.mapLines] using hmap
    | elseIf | otherwise | endIf => exact fun e he => standsOn_clause hmap he
    | command => exact List.forall_mem_singleton.2 trivial

theorem linesAgree_readItem {e : BodyEnd} (hp : Placed p (t :: rest))
    (h : readItem e t rest = .ok (item, n)) : item.LinesAgree := by
  cases itemRead_of_readItem h with
  | newline | indent | dedent | blank => trivial
  | text => exact List.forall_mem_singleton.2 trivial
  | option kind read => exact read.linesAgree kind hp
  | shortcut kind read => exact read.linesAgree kind hp
  | command kind read => exact read.linesAgree kind hp

end

namespace Statement

theorem BlockLinesAgree.concat {ss : List Statement} {s : Statement} (h : BlockLinesAgree ss)
    (hs : ∀ inner ∈ s.within, inner.LinesAgree) : BlockLinesAgree (ss ++ [s]) := by
  unfold BlockLinesAgree
  rw [blockWithin_append, blockWithin, blockWithin, List.append_nil]
  exact List.forall_mem_append.2 ⟨h, hs⟩

variable {line number : Nat} {branches : List Branch} {condition : Option Expr}
  {body body' : List Statement}

/-- Whether the lines of a conditional agree does not depend on what its branches hold. -/
theorem LinesAgree.replace
    (h : (conditional line (branches ++ [.mk number condition body])).LinesAgree) :
    (conditional line (branches ++ [.mk number condition body'])).LinesAgree := by
  obtain ⟨hfirst, hconditions⟩ := h
  obtain ⟨hbranches, hlast⟩ := List.forall_mem_append.1 hconditions
  refine ⟨?_, List.forall_mem_append.2 ⟨hbranches, ?_⟩⟩
  · cases branches with
    | nil => exact hfirst
    | cons => exact hfirst
  · exact List.forall_mem_singleton.2 (List.forall_mem_singleton.1 hlast)

theorem LinesAgree.concat (h : (conditional line branches).LinesAgree)
    (hc : ∀ e ∈ condition, e.StandsOn number) :
    (conditional line (branches ++ [.mk number condition body])).LinesAgree := by
  obtain ⟨hfirst, hconditions⟩ := h
  refine ⟨?_, List.forall_mem_append.2 ⟨hconditions, List.forall_mem_singleton.2 hc⟩⟩
  cases branches with
  | nil => cases hfirst
  | cons => exact hfirst

theorem linesAgree_branchesWithin (h : ∀ s ∈ branchesWithin branches, s.LinesAgree)
    (hbody : BlockLinesAgree body) :
    ∀ s ∈ branchesWithin (branches ++ [.mk number condition body]), s.LinesAgree := by
  rw [branchesWithin_append, branchesWithin, branchesWithin, List.append_nil]
  exact List.forall_mem_append.2 ⟨h, hbody⟩

end Statement

namespace Assembly

structure LinesAgree (a : Assembly) : Prop where
  block : BlockLinesAgree a.block
  around : ∀ x ∈ a.around, x.LinesAgree

variable {e : BodyEnd} {a b : Assembly} {t : Token} {item : Item}

theorem LinesAgree.dedents (ha : a.LinesAgree) (h : Dedents a b) : b.LinesAgree := by
  obtain ⟨hblock, haround⟩ := ha
  cases h with
  | outside | plain => exact ⟨hblock, haround⟩
  | shortcut =>
    obtain ⟨⟨hhead, hbefore⟩, haround⟩ := List.forall_mem_cons.1 haround
    exact ⟨hbefore.concat (List.forall_mem_cons.2 ⟨hhead, hblock⟩), haround⟩

theorem LinesAgree.continues {c : Clause} (ha : a.LinesAgree)
    (hc : ∀ e, c.kind = .elseIf e → e.StandsOn c.position.line) (h : Continues c a b) :
    b.LinesAgree := by
  obtain ⟨hblock, haround⟩ := ha
  cases h with
  | ends =>
    obtain ⟨⟨hhead, hbranches, hbefore⟩, haround⟩ := List.forall_mem_cons.1 haround
    refine ⟨hbefore.concat (List.forall_mem_cons.2 ⟨hhead.replace, ?_⟩), haround⟩
    exact Statement.linesAgree_branchesWithin hbranches hblock
  | next found kind =>
    obtain ⟨⟨hhead, hbranches, hbefore⟩, haround⟩ := List.forall_mem_cons.1 haround
    have hfound : ∀ e ∈ found, e.StandsOn c.position.line := by
      rintro e rfl
      exact hc e kind
    refine ⟨nofun, List.forall_mem_cons.2 ⟨⟨hhead.replace.concat hfound, ?_, hbefore⟩, haround⟩⟩
    exact Statement.linesAgree_branchesWithin hbranches hblock

/-- An item whose lines agree keeps them so. -/
theorem LinesAgree.add (ha : a.LinesAgree) (hi : item.LinesAgree) (h : a.add t item = .ok b) :
    b.LinesAgree := by
  cases item with
  | space | indent =>
    cases h
    exact ⟨ha.block, ha.around⟩
  | dedent => exact ha.dedents (dedent_eq_ok_iff.1 h)
  | statement s =>
    cases h
    exact ⟨ha.block.concat hi, ha.around⟩
  | shortcut line label condition =>
    cases h
    exact ⟨nofun, List.forall_mem_cons.2 ⟨⟨hi, ha.block⟩, ha.around⟩⟩
  | ifStart line condition =>
    cases h
    refine ⟨nofun, List.forall_mem_cons.2 ⟨⟨⟨rfl, ?_⟩, nofun, ha.block⟩, ha.around⟩⟩
    refine List.forall_mem_singleton.2 fun e he => ?_
    obtain rfl := Option.some.inj he
    exact hi
  | clause c => exact ha.continues hi (clause_eq_ok_iff.1 h)

theorem linesAgree_finish {err : SyntaxError} {block ss : List Statement}
    {around : List Enclosing} (ha : LinesAgree ⟨block, around, []⟩)
    (h : finish err block around = .ok ss) : BlockLinesAgree ss := by
  induction around generalizing block with
  | nil =>
    cases h
    exact ha.block
  | cons enclosing around ih =>
    cases enclosing with
    | shortcut line label condition before =>
      obtain ⟨⟨hhead, hbefore⟩, haround⟩ := List.forall_mem_cons.1 ha.around
      have hblock : BlockLinesAgree (before ++ [.shortcut line label condition block]) :=
        hbefore.concat (List.forall_mem_cons.2 ⟨hhead, ha.block⟩)
      exact ih ⟨hblock, haround⟩ h
    | conditional => cases h

/-- Lines agree in whatever is read. -/
theorem linesAgree_read {p : Position} {tokens : List Token} {ss : List Statement}
    (ha : a.LinesAgree) (hp : Placed p tokens) (h : a.read e tokens = .ok ss) :
    BlockLinesAgree ss := by
  fun_induction read e a tokens generalizing p with
  | case1 => exact linesAgree_finish ⟨ha.block, ha.around⟩ h
  | case2 => exact linesAgree_finish ⟨ha.block, ha.around⟩ h
  | case3 => cases h
  | case4 => cases h
  | case5 a t rest _ item n hitem b hadd ih =>
    have hi := linesAgree_readItem hp hitem
    rw [← List.take_append_drop n rest, ← List.cons_append] at hp
    exact ih (ha.add hi hadd) hp.drop h

end Assembly

namespace Statement

/-- A walk through the statements of a body meets their lines in order, each of them a line of the
body, and every statement at any depth shares its line with what belongs to it. -/
theorem lines_follow_source {body : List Char} {ss : List Statement} (h : ofBody body = .ok ss) :
    (blockTrail ss).Pairwise (· ≤ ·) ∧
      (∀ n ∈ blockTrail ss, 1 ≤ n ∧ n ≤ 1 + body.count '\n') ∧
      ∀ s ∈ blockWithin ss, s.LinesAgree := by
  obtain ⟨tokens, htokens, hread⟩ := exists_tokens_of_ofBody h
  have hplaced := Cursor.placed_tokens? _ _ htokens
  obtain ⟨more, hmore, hsorted, hbounds⟩ := Assembly.trail_read hplaced hread
  have htrail : ({} : Assembly).trail = [] := rfl
  rw [htrail, List.nil_append] at hmore
  have hwhole := Cursor.flatMap_text_tokens (.ofBody body) (Cursor.owesLevels_ofBody body)
  rw [Cursor.tokens_of_tokens? htokens] at hwhole
  rw [hwhole, Position.advance_line] at hbounds
  have hempty : ({} : Assembly).LinesAgree := ⟨nofun, nofun⟩
  rw [hmore]
  exact ⟨hsorted, hbounds, Assembly.linesAgree_read hempty hplaced hread⟩

/-- A walk that meets several lines twice, and blank ones never. -/
def lodging : List Char :=
  "\n-> Ask <<if visited(\"Inn\") && $paid>>\n\t<<if $late>>\n\tHurry. <<set $fee += $toll * ($bed - $meal)>>\n\n\t<<else if !$up>>\n\t[[Rest|inn]] <<if $key>>\n\t<<endif>>\nLeave.".toList

theorem lines_follow_source_lodging :
    ∃ ss, ofBody lodging = .ok ss ∧ blockTrail ss = [2, 3, 3, 4, 4, 6, 7, 9] ∧
      (blockTrail ss).Pairwise (· ≤ ·) ∧
      (∀ n ∈ blockTrail ss, 1 ≤ n ∧ n ≤ 1 + lodging.count '\n') ∧
      ∀ s ∈ blockWithin ss, s.LinesAgree := by
  have hread : ofBody lodging = .ok
      [.shortcut 2 "Ask" (some (.binary 2 .and
          (.call 2 "visited" [.literal 2 (.string "Inn")]) (.var 2 "paid")))
          [.conditional 3 [.mk 3 (some (.var 3 "late")) [.text 4 "Hurry.",
              .assignment 4 "fee" .add (.binary 4 .mul (.var 4 "toll")
                (.binary 4 .sub (.var 4 "bed") (.var 4 "meal")))],
            .mk 6 (some (.unary 6 .not (.var 6 "up")))
              [.option 7 "Rest" "inn" (some (.var 7 "key"))]]],
        .text 9 "Leave."] := by
    cbv
  exact ⟨_, hread, rfl, lines_follow_source hread⟩

end Statement

end Dialogue
