import Dialogue.Proofs.Gathering

/-!
# What has been read stays read

The head of a statement is what its first line tells of it; a conditional has one
head for each branch. Reading gathers the heads of one item after another
(`gathers_heads`) and never takes one back, so the heads that have been read at some
place of a body are the first heads of all its statements. A place from which reading
goes astray is told from the heads alone.
-/

namespace Dialogue

open Statement

/-- What the first line of a statement or of a branch tells, without its lines. -/
inductive Head where
  | text (content : String)
  | link (destination : String)
  | option (label destination : String) (condition : Option Expr)
  | shortcut (label : String) (condition : Option Expr)
  | branch (condition : Option Expr)
  | assignment (target : String) (op : AssignOp) (value : Expr)
  | command (content : String)

namespace Statement

mutual

/-- The heads of a statement and of all that stands in it, in the order of the body. -/
def heads : Statement → List Head
  | .text _ content => [.text content]
  | .link _ destination => [.link destination]
  | .option _ label destination condition =>
    [.option label destination (erasedCondition condition)]
  | .shortcut _ label condition body =>
    .shortcut label (erasedCondition condition) :: blockHeads body
  | .conditional _ branches => branchesHeads branches
  | .assignment _ target op value => [.assignment target op (value.atLine 0)]
  | .command _ content => [.command content]

def blockHeads : List Statement → List Head
  | [] => []
  | s :: ss => s.heads ++ blockHeads ss

def branchesHeads : List Branch → List Head
  | [] => []
  | .mk _ condition body :: branches =>
    .branch (erasedCondition condition) :: blockHeads body ++ branchesHeads branches

end

theorem erasedCondition_erasedCondition (condition : Option Expr) :
    erasedCondition (erasedCondition condition) = erasedCondition condition := by
  cases condition with
  | none => rfl
  | some e => simp only [erasedCondition, Option.map_some, Expr.atLine_atLine]

mutual

theorem heads_erased : ∀ s : Statement, s.erased.heads = s.heads
  | .text _ _ => rfl
  | .link _ _ => rfl
  | .option _ _ _ condition => by
    simp only [erased, heads, erasedCondition_erasedCondition]
  | .shortcut _ _ condition body => by
    simp only [erased, heads, erasedCondition_erasedCondition, blockHeads_erasedBlock body]
  | .conditional _ branches => by
    simp only [erased, heads, branchesHeads_erasedBranches branches]
  | .assignment _ _ _ value => by simp only [erased, heads, Expr.atLine_atLine]
  | .command _ _ => rfl

theorem blockHeads_erasedBlock : ∀ ss : List Statement, blockHeads (erasedBlock ss) = blockHeads ss
  | [] => rfl
  | s :: ss => by
    simp only [erasedBlock, blockHeads, heads_erased s, blockHeads_erasedBlock ss]

theorem branchesHeads_erasedBranches : ∀ bs : List Branch,
    branchesHeads (erasedBranches bs) = branchesHeads bs
  | [] => rfl
  | .mk _ condition body :: bs => by
    simp only [erasedBranches, branchesHeads, erasedCondition_erasedCondition,
      blockHeads_erasedBlock body, branchesHeads_erasedBranches bs]

end

theorem blockHeads_of_erasedBlock {a b : List Statement} (h : erasedBlock a = erasedBlock b) :
    blockHeads a = blockHeads b := by
  rw [← blockHeads_erasedBlock a, h, blockHeads_erasedBlock b]

theorem heads_of_erased {s s' : Statement} (h : s.erased = s'.erased) : s.heads = s'.heads := by
  rw [← heads_erased s, h, heads_erased s']

theorem blockHeads_append (a b : List Statement) :
    blockHeads (a ++ b) = blockHeads a ++ blockHeads b := by
  induction a with
  | nil => rfl
  | cons s ss ih => simp only [List.cons_append, blockHeads, ih, List.append_assoc]

theorem branchesHeads_append (a b : List Branch) :
    branchesHeads (a ++ b) = branchesHeads a ++ branchesHeads b := by
  induction a with
  | nil => rfl
  | cons branch bs ih =>
    cases branch
    simp only [List.cons_append, branchesHeads, ih, List.append_assoc]

end Statement

def Enclosing.heads : Enclosing → List Head
  | .shortcut _ label condition before =>
    blockHeads before ++ [.shortcut label (erasedCondition condition)]
  | .conditional _ branches _ condition before =>
    blockHeads before ++ branchesHeads branches ++ [.branch (erasedCondition condition)]

def aroundHeads : List Enclosing → List Head
  | [] => []
  | x :: around => aroundHeads around ++ x.heads

def Assembly.heads (a : Assembly) : List Head := aroundHeads a.around ++ blockHeads a.block

def ClauseKind.heads : ClauseKind → List Head
  | .elseIf condition => [.branch (erasedCondition (some condition))]
  | .otherwise => [.branch none]
  | .endIf => []

def Item.heads : Item → List Head
  | .statement s => s.heads
  | .shortcut _ label condition => [.shortcut label (erasedCondition condition)]
  | .ifStart _ condition => [.branch (erasedCondition (some condition))]
  | .clause c => c.kind.heads
  | _ => []

namespace Assembly

variable {a b : Assembly} {t : Token}

theorem heads_push (s : Statement) : (a.push s).heads = a.heads ++ s.heads := by
  simp only [heads, push, blockHeads_append, blockHeads, List.append_nil, List.append_assoc]

theorem gathers_heads : Gathers blockHeads Enclosing.heads aroundHeads Item.heads where
  block_nil := rfl
  around_nil := rfl
  around_cons _ _ := rfl
  silent := ⟨rfl, rfl, rfl⟩
  push _ _ := by simp [blockHeads_append, blockHeads, Item.heads]
  shortcut _ _ _ _ := rfl
  close _ _ _ _ _ := by
    simp [blockHeads_append, blockHeads, Statement.heads, Enclosing.heads]
  ifStart _ _ _ := by simp [Enclosing.heads, branchesHeads, Item.heads]
  next {_ found} kind _ _ _ _ _ _ := by
    cases found <;>
      simp [Enclosing.heads, branchesHeads_append, branchesHeads, Item.heads, kind,
        ClauseKind.heads, erasedCondition]
  ends kind _ _ _ _ _ _ := by
    simp [Enclosing.heads, blockHeads_append, blockHeads, Statement.heads,
      branchesHeads_append, branchesHeads, Item.heads, kind, ClauseKind.heads]

theorem exists_item {e : BodyEnd} {rest : List Token} {ss : List Statement}
    (hk : t.kind ≠ .endOfInput) (h : a.read e (t :: rest) = .ok ss) :
    ∃ item n, readItem e t rest = .ok (item, n) ∧ a.heads ++ item.heads <+: blockHeads ss := by
  rw [read, if_neg hk] at h
  split at h
  · cases h
  · rename_i item n hitem
    split at h
    · cases h
    · rename_i b hadd
      refine ⟨item, n, hitem, ?_⟩
      have hread := gathers_heads.read h
      rw [gathers_heads.add hadd] at hread
      exact hread

end Assembly

/-! ### Going astray -/

namespace Place

/-- From here no body with these first heads is read. -/
def Strays (p : Place) (heads : List Head) : Prop :=
  ∀ e ss, p.result e = some ss → ¬heads <+: blockHeads ss

theorem Leads.strays {p q : Place} {heads : List Head} (h : p.Leads q) (hq : q.Strays heads) :
    p.Strays heads := by
  intro e ss hs
  exact hq e ss (by rw [← h e]; exact hs)

theorem Strays.append {p : Place} {heads : List Head} (h : p.Strays heads) (more : List Head) :
    p.Strays (heads ++ more) := by
  intro e ss hs hp
  exact h e ss hs ((List.prefix_append heads more).trans hp)

theorem Leads.strays_behind {c d : Cursor} {a b : Assembly} {before after : List Head}
    (h : Leads ⟨c, a⟩ ⟨d, b⟩) (hb : b.heads = a.heads ++ before)
    (hd : Strays ⟨d, b⟩ (b.heads ++ after)) : Strays ⟨c, a⟩ (a.heads ++ (before ++ after)) := by
  rw [hb, List.append_assoc] at hd
  exact h.strays hd

/-- Reading goes astray where the next item begins with another head. -/
theorem strays_of_item {c d : Cursor} {a : Assembly} {t : Token} {ts : List Token} {head : Head}
    (hw : c.Walks (t :: ts) d)
    (h : ∀ e rest item n, readItem e t (ts ++ rest) = .ok (item, n) →
      ∃ other others, item.heads = other :: others ∧ other ≠ head) :
    Strays ⟨c, a⟩ (a.heads ++ [head]) := by
  intro e ss hs hp
  have hk : t.kind ≠ .endOfInput := by
    cases hw with
    | cons _ more _ =>
      intro hk
      rw [hk] at more
      cases more
  unfold result at hs
  simp only at hs
  rw [hw.tokens?] at hs
  cases hd : d.tokens? with
  | error err =>
    rw [hd] at hs
    cases hs
  | ok rest =>
    simp only [hd, Except.map] at hs
    cases hread : a.read e (t :: ts ++ rest) with
    | error err =>
      rw [hread] at hs
      cases hs
    | ok found =>
      rw [hread] at hs
      cases hs
      obtain ⟨item, n, hitem, hheads⟩ := Assembly.exists_item hk hread
      obtain ⟨other, others, ho, hne⟩ := h e rest item n hitem
      rw [ho] at hheads
      obtain ⟨u, hu⟩ := hheads
      obtain ⟨v, hv⟩ := hp
      rw [← hv, List.append_assoc, List.append_assoc] at hu
      exact hne (List.cons.inj (List.append_cancel_left hu)).1

end Place

end Dialogue
