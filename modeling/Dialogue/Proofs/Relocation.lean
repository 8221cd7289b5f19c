import Dialogue.Proofs.Leaves
import Dialogue.Proofs.LineMaps
import Dialogue.Proofs.Lossless
import Dialogue.Statement.Item

/-!
# Text on other lines

What stands in a text does not depend on the line it begins on. An expression read
from another line has that line in all its nodes, and a command on another line says
the same. A cursor that stands further down hands out the same tokens further down,
since columns count from the beginning of each line.
-/

namespace Dialogue

namespace Expr

variable (f : Nat → Nat)

def Pending.mapLines : Pending → Pending
  | .group => .group
  | .call name args => .call name (argumentsMapLines f args)
  | .operand op => .operand op
  | .right left op => .right (left.mapLines f) op

theorem argumentsMapLines_append (a b : List Expr) :
    argumentsMapLines f (a ++ b) = argumentsMapLines f a ++ argumentsMapLines f b := by
  induction a with
  | nil => rfl
  | cons e es ih => rw [List.cons_append, argumentsMapLines, argumentsMapLines, ih, List.cons_append]

theorem complete_mapLines (line level : Nat) (stack : List Pending) (e : Expr) :
    complete (f line) level (stack.map (Pending.mapLines f)) (e.mapLines f) =
      ((complete line level stack e).1.map (Pending.mapLines f),
        (complete line level stack e).2.mapLines f) := by
  induction stack generalizing e with
  | nil => rfl
  | cons p stack ih =>
    cases p with
    | group | call => rfl
    | operand op => exact ih (.unary line op e)
    | right left op =>
      rw [List.map_cons, Pending.mapLines, complete, complete]
      split
      · exact ih (.binary line op left e)
      · rfl

theorem complete_of_eq {line level : Nat} {stack stack' : List Pending} {e e' : Expr}
    (h : complete line level stack e = (stack', e')) :
    complete (f line) level (stack.map (Pending.mapLines f)) (e.mapLines f) =
      (stack'.map (Pending.mapLines f), e'.mapLines f) := by
  rw [complete_mapLines, h]

variable {f} {source source' : Source}

mutual

theorem readOperand_mapLines (hs : source'.line = f source.line) (stack : List Pending) :
    ∀ (lexemes : List Lexeme) (e : Expr), readOperand source stack lexemes = .ok e →
    readOperand source' (stack.map (Pending.mapLines f)) lexemes = .ok (e.mapLines f)
  | [], _, h => by
    rw [readOperand] at h
    cases h
  | lexeme :: rest, e, h => by
    rw [readOperand] at h ⊢
    split at h
    · rw [hs]
      exact readOperator_mapLines hs stack _ rest e h
    · rw [hs]
      exact readOperator_mapLines hs stack _ rest e h
    · exact readArguments_mapLines hs stack _ rest e h
    · exact readOperand_mapLines hs (.group :: stack) rest e h
    · exact readOperand_mapLines hs (.operand .negate :: stack) rest e h
    · exact readOperand_mapLines hs (.operand .not :: stack) rest e h
    · cases h

theorem readArguments_mapLines (hs : source'.line = f source.line) (stack : List Pending)
    (name : String) : ∀ (lexemes : List Lexeme) (e : Expr),
    readArguments source stack name lexemes = .ok e →
    readArguments source' (stack.map (Pending.mapLines f)) name lexemes = .ok (e.mapLines f)
  | [], _, h => by
    rw [readArguments] at h
    cases h
  | [lexeme], e, h => by
    rw [readArguments] at h
    split at h
    · rw [readOperand] at h
      cases h
    · cases h
  | lexeme :: next :: rest, e, h => by
    rw [readArguments] at h ⊢
    split at h
    · rename_i hopen
      rw [if_pos hopen]
      split at h
      · rename_i hclose
        rw [if_pos hclose, hs]
        exact readOperator_mapLines hs stack _ rest e h
      · rename_i hclose
        rw [if_neg hclose]
        exact readOperand_mapLines hs (.call name [] :: stack) (next :: rest) e h
    · cases h

theorem readOperator_mapLines (hs : source'.line = f source.line) (stack : List Pending)
    (operand : Expr) : ∀ (lexemes : List Lexeme) (e : Expr),
    readOperator source stack operand lexemes = .ok e →
    readOperator source' (stack.map (Pending.mapLines f)) (operand.mapLines f) lexemes =
      .ok (e.mapLines f)
  | [], e, h => by
    rw [readOperator] at h ⊢
    split at h
    · rename_i whole hc
      cases h
      rw [hs, complete_of_eq f hc]
      rfl
    · cases h
  | lexeme :: rest, e, h => by
    rw [readOperator] at h ⊢
    split at h
    · split at h
      · rename_i stack' inner hc
        rw [hs, complete_of_eq f hc]
        exact readOperator_mapLines hs stack' inner rest e h
      · rename_i name args stack' last hc
        have hrest := readOperator_mapLines hs stack' _ rest e h
        rw [mapLines, argumentsMapLines_append] at hrest
        rw [hs, complete_of_eq f hc]
        exact hrest
      · cases h
    · split at h
      · rename_i name args stack' last hc
        have hrest := readOperand_mapLines hs (.call name (args ++ [last]) :: stack') rest e h
        rw [List.map_cons, Pending.mapLines, argumentsMapLines_append] at hrest
        rw [hs, complete_of_eq f hc]
        exact hrest
      · cases h
    · split at h
      · rename_i op ho
        have hrest := readOperand_mapLines hs _ rest e h
        rw [hs, complete_mapLines]
        exact hrest
      · cases h
    · cases h

end

theorem readSource_of_eq_ok {α : Type} {read : Source → List Lexeme → Except Misfit α}
    {origin : Position} {text : List Char} {lexemes : List Lexeme} {a : α}
    (hs : scan text = .ok lexemes)
    (hr : read ⟨origin.line, Text.byteLength text⟩ lexemes = .ok a) :
    readSource read origin text = .ok a := by
  unfold readSource
  rw [hs]
  simp only
  rw [hr]

theorem parseAt_mapLines {origin origin' : Position} {text : List Char} {e : Expr}
    (hl : origin'.line = f origin.line) (h : parseAt origin text = .ok e) :
    parseAt origin' text = .ok (e.mapLines f) := by
  obtain ⟨lexemes, hs, hr⟩ := readSource_eq_ok h
  exact readSource_of_eq_ok hs (readOperand_mapLines hl [] lexemes e hr)

theorem parseAssignmentAt_mapLines {origin origin' : Position} {text : List Char} {a : Assignment}
    (hl : origin'.line = f origin.line) (h : parseAssignmentAt origin text = .ok a) :
    parseAssignmentAt origin' text = .ok ⟨a.target, a.op, a.value.mapLines f⟩ := by
  obtain ⟨lexemes, hs, hr⟩ := readSource_eq_ok h
  refine readSource_of_eq_ok hs ?_
  unfold assignmentOfLexemes at hr ⊢
  split at hr
  · split at hr
    · rename_i value
      split at hr
      · rename_i op ho
        obtain ⟨e, he, rfl⟩ := exists_of_map_eq_ok hr
        have hvalue : ofLexemes ⟨origin'.line, Text.byteLength text⟩ value = .ok (e.mapLines f) :=
          readOperand_mapLines hl [] value e he
        simp only [hvalue]
        rfl
      · cases hr
    · cases hr
  · cases hr

end Expr

def Token.mapLine (f : Nat → Nat) (t : Token) : Token :=
  { t with position := ⟨f t.position.line, t.position.column⟩ }

@[simp] theorem Token.mapLine_kind (f : Nat → Nat) (t : Token) : (t.mapLine f).kind = t.kind := rfl

@[simp] theorem Token.mapLine_text (f : Nat → Nat) (t : Token) : (t.mapLine f).text = t.text := rfl

def ClauseKind.mapLines (f : Nat → Nat) : ClauseKind → ClauseKind
  | .elseIf condition => .elseIf (condition.mapLines f)
  | .otherwise => .otherwise
  | .endIf => .endIf

def Directive.mapLines (f : Nat → Nat) : Directive → Directive
  | .statement s => .statement (s.mapLines f)
  | .ifStart condition => .ifStart (condition.mapLines f)
  | .clause kind => .clause (kind.mapLines f)

section

variable {f : Nat → Nat} {t : Token} {n : Nat}

theorem expressionAt_moved {u : Token} (ht : u.text = t.text)
    (hl : u.position.line = f t.position.line) {e : Expr} (h : t.expressionAt n = .ok e) :
    u.expressionAt n = .ok (e.mapLines f) := by
  have hline : (u.positionAt n).line = f (t.positionAt n).line := hl
  unfold Token.expressionAt
  rw [ht]
  exact Expr.parseAt_mapLines hline h

theorem elseClause_moved {u : Token} (ht : u.text = t.text)
    (hl : u.position.line = f t.position.line) {kind : ClauseKind}
    (h : elseClause t n = .ok kind) : elseClause u n = .ok (kind.mapLines f) := by
  unfold elseClause at h ⊢
  simp only [ht] at h ⊢
  split at h
  · rename_i hend
    cases h
    exact if_pos hend
  · rename_i hend
    refine (if_neg hend).trans ?_
    split at h
    · rename_i hif
      obtain ⟨e, he, rfl⟩ := exists_of_map_eq_ok h
      refine (if_pos hif).trans ?_
      exact congrArg (Except.map ClauseKind.elseIf) (expressionAt_moved ht hl he)
    · cases h

theorem readDirective_moved {u : Token} (ht : u.text = t.text)
    (hl : u.position.line = f t.position.line) {line : Nat} {d : Directive}
    (h : readDirective line t = .ok d) : readDirective (f line) u = .ok (d.mapLines f) := by
  unfold readDirective at h ⊢
  simp only [ht] at h ⊢
  split at h
  · obtain ⟨a, ha, rfl⟩ := exists_of_map_eq_ok h
    have hline : (u.positionAt (leadingWord t.text).2).line =
        f (t.positionAt (leadingWord t.text).2).line := hl
    exact congrArg (Except.map _) (Expr.parseAssignmentAt_mapLines hline ha)
  · obtain ⟨e, he, rfl⟩ := exists_of_map_eq_ok h
    exact congrArg (Except.map _) (expressionAt_moved ht hl he)
  · obtain ⟨e, he, rfl⟩ := exists_of_map_eq_ok h
    exact congrArg (Except.map _) (expressionAt_moved ht hl he)
  · obtain ⟨kind, hk, rfl⟩ := exists_of_map_eq_ok h
    exact congrArg (Except.map _) (elseClause_moved ht hl hk)
  · split at h
    · rename_i hend
      cases h
      exact if_pos hend
    · cases h
  · cases h
    rfl

theorem expressionAt_mapLine {e : Expr} (h : t.expressionAt n = .ok e) :
    (t.mapLine f).expressionAt n = .ok (e.mapLines f) :=
  expressionAt_moved (t := t) (u := t.mapLine f) rfl rfl h

theorem readDirective_mapLine {line : Nat} {d : Directive} (h : readDirective line t = .ok d) :
    readDirective (f line) (t.mapLine f) = .ok (d.mapLines f) :=
  readDirective_moved (t := t) (u := t.mapLine f) rfl rfl h

end

/-! ### Tokens further down -/

def Position.below (k : Nat) (p : Position) : Position := ⟨p.line + k, p.column⟩

theorem Position.advance_below (k : Nat) (p : Position) (cs : List Char) :
    (p.below k).advance cs = (p.advance cs).below k := by
  induction cs generalizing p with
  | nil => rfl
  | cons c cs ih =>
    have hnext : (p.below k).next c = (p.next c).below k := by
      unfold Position.next
      split
      · exact congrArg (Position.mk · 1) (Nat.add_right_comm _ _ _)
      · rfl
    rw [Position.advance_cons, Position.advance_cons, hnext, ih]

def Token.below (k : Nat) (t : Token) : Token := t.mapLine (· + k)

namespace Cursor

def below (k : Nat) (c : Cursor) : Cursor := { c with position := c.position.below k }

variable (k : Nat) (c : Cursor)

theorem skip_below (n : Nat) : (c.below k).skip n = (c.skip n).below k := by
  simp only [skip, below, Position.advance_below]

theorem start_below : (c.below k).start = c.start.below k := rfl

theorem measure_below : (c.below k).measure = c.measure.below k := by
  unfold measure
  by_cases hr : c.rest = []
  · rw [if_pos hr]
    exact if_pos hr
  · rw [if_neg hr]
    refine (if_neg hr).trans ?_
    by_cases hw : c.levels.headD c.base < c.position.column - 1
    · rw [if_pos hw]
      exact if_pos hw
    · rw [if_neg hw]
      exact if_neg hw

theorem stepContent_below :
    (c.below k).stepContent = (c.stepContent.1.below k, c.stepContent.2.below k) := by
  have htoken : (c.below k).mode.tokenAt (c.below k).lineStart (c.below k).rest =
      c.mode.tokenAt c.lineStart c.rest := rfl
  unfold stepContent
  rw [htoken]
  cases c.mode.tokenAt c.lineStart c.rest with
  | none => exact congrArg (Prod.mk _) (skip_below k c _)
  | some found =>
    obtain ⟨kind, n⟩ := found
    have hnext : ((c.below k).skip n).enter kind = ((c.skip n).enter kind).below k := by
      rw [skip_below]
      rfl
    simp only
    rw [hnext]
    split
    · exact congrArg (Prod.mk _) (measure_below k _)
    · rfl

theorem stepEnd_below : (c.below k).stepEnd = (c.stepEnd.1.below k, c.stepEnd.2.below k) := by
  have hlevels : (c.below k).levels = c.levels := rfl
  unfold stepEnd
  rw [hlevels]
  split <;> rfl

theorem step_below : (c.below k).step = (c.step.1.below k, c.step.2.below k) := by
  have howed : (c.below k).owed = c.owed := rfl
  have hlead : (c.below k).leadLength = c.leadLength := rfl
  have hrest : (c.below k).rest = c.rest := rfl
  unfold step
  rw [howed, hlead, hrest, start_below]
  split
  · rfl
  · split
    · exact congrArg (fun d : Cursor => (_, d.start)) (skip_below k c _)
    · split
      · exact stepEnd_below k c.start
      · exact stepContent_below k c.start

theorem tokens?_below {ts : List Token} (h : c.tokens? = .ok ts) :
    (c.below k).tokens? = .ok (ts.map (Token.below k)) := by
  fun_induction Cursor.tokens? c generalizing ts with
  | case1 c more rest hrest ih =>
    cases h
    have hstep := step_below k c
    have hmore : (c.below k).step.1.kind.isFinal = false := by
      rw [hstep]
      exact more
    rw [tokens?_of_not_isFinal _ hmore, hstep]
    simp only [ih hrest]
    rfl
  | case2 c more e he ih => cases h
  | case3 => cases h
  | case4 c last hvalid =>
    cases h
    rw [Cursor.tokens?, step_below k c]
    exact (dif_neg last).trans (if_neg hvalid)

end Cursor

end Dialogue
