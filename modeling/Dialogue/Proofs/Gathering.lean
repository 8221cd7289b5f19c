import Dialogue.Proofs.Assembling

/-!
# What reading gathers

A walk through statements tells something of each of them, in the order of the body.
Where the constructs that are still open and a single item tell of it as well
(`Gathers`), reading gathers it: each item adds its own part to what has been read
(`Gathers.add`), and what has been read at some place of a body is what the walk
through all its statements begins with (`Gathers.read`).
-/

namespace Dialogue
namespace Assembly

variable {α : Type} {block : List Statement → List α} {enclosing : Enclosing → List α}
  {around : List Enclosing → List α} {item : Item → List α}

/-- What a walk tells of a block is told piece by piece: by the items in the order they are read,
and by the constructs that are open around the block. -/
structure Gathers (block : List Statement → List α) (enclosing : Enclosing → List α)
    (around : List Enclosing → List α) (item : Item → List α) : Prop where
  block_nil : block [] = []
  around_nil : around [] = []
  around_cons : ∀ x outer, around (x :: outer) = around outer ++ enclosing x
  silent : item .space = [] ∧ item .indent = [] ∧ item .dedent = []
  push : ∀ ss s, block (ss ++ [s]) = block ss ++ item (.statement s)
  shortcut : ∀ line label condition before,
    enclosing (.shortcut line label condition before) =
      block before ++ item (.shortcut line label condition)
  close : ∀ line label condition before body,
    block (before ++ [.shortcut line label condition body]) =
      enclosing (.shortcut line label condition before) ++ block body
  ifStart : ∀ line condition before,
    enclosing (.conditional line [] line (some condition) before) =
      block before ++ item (.ifStart line condition)
  next : ∀ {c : Clause} {found : Option Expr}, c.kind = found.elim .otherwise .elseIf →
    ∀ line branches branchLine condition before body,
      enclosing (.conditional line (branches ++ [.mk branchLine (some condition) body])
          c.position.line found before) =
        enclosing (.conditional line branches branchLine (some condition) before) ++
          (block body ++ item (.clause c))
  ends : ∀ {c : Clause}, c.kind = .endIf →
    ∀ line branches branchLine condition before body,
      block (before ++ [.conditional line (branches ++ [.mk branchLine condition body])]) =
        enclosing (.conditional line branches branchLine condition before) ++
          (block body ++ item (.clause c))

namespace Gathers

variable {a b : Assembly} {t : Token} {i : Item}

theorem dedents (g : Gathers block enclosing around item) (h : Dedents a b) :
    around b.around ++ block b.block = around a.around ++ block a.block := by
  cases h with
  | outside | plain => rfl
  | shortcut => rw [g.close, g.around_cons, List.append_assoc]

theorem continues (g : Gathers block enclosing around item) {c : Clause} (h : Continues c a b) :
    around b.around ++ block b.block =
      around a.around ++ block a.block ++ item (.clause c) := by
  cases h with
  | ends kind => simp only [g.ends kind, g.around_cons, List.append_assoc]
  | next found kind =>
    simp only [g.next kind, g.around_cons, g.block_nil, List.append_nil, List.append_assoc]

/-- An item adds its part behind what has been read. -/
theorem add (g : Gathers block enclosing around item) (h : a.add t i = .ok b) :
    around b.around ++ block b.block = around a.around ++ block a.block ++ item i := by
  obtain ⟨hspace, hindent, hdedent⟩ := g.silent
  cases i with
  | space =>
    cases h
    rw [hspace, List.append_nil]
  | indent =>
    cases h
    rw [hindent, List.append_nil]
  | dedent => rw [g.dedents (dedent_eq_ok_iff.1 h), hdedent, List.append_nil]
  | statement s =>
    cases h
    rw [Assembly.push, g.push, List.append_assoc]
  | shortcut line label condition =>
    cases h
    rw [nest, g.around_cons, g.shortcut, g.block_nil, List.append_nil, List.append_assoc]
  | ifStart line condition =>
    cases h
    rw [nest, g.around_cons, g.ifStart, g.block_nil, List.append_nil, List.append_assoc]
  | clause c => exact g.continues (clause_eq_ok_iff.1 h)

theorem finish (g : Gathers block enclosing around item) {e : SyntaxError}
    {outer : List Enclosing} {ss found : List Statement}
    (h : Assembly.finish e ss outer = .ok found) : block found = around outer ++ block ss := by
  induction outer generalizing ss with
  | nil =>
    cases h
    rw [g.around_nil, List.nil_append]
  | cons x outer ih =>
    cases x with
    | shortcut => rw [ih h, g.close, g.around_cons, List.append_assoc]
    | conditional => cases h

/-- What has been read stays read. -/
theorem read (g : Gathers block enclosing around item) {e : BodyEnd} {tokens : List Token}
    {found : List Statement} (h : a.read e tokens = .ok found) :
    around a.around ++ block a.block <+: block found := by
  fun_induction Assembly.read e a tokens with
  | case1 | case2 => rw [g.finish h]
  | case3 => cases h
  | case4 => cases h
  | case5 a t rest _ i n hitem b hadd ih =>
    have hb := ih h
    rw [g.add hadd] at hb
    exact (List.prefix_append _ _).trans hb

end Gathers
end Assembly
end Dialogue
