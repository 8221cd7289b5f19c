import Dialogue.Body.Mode

/-!
# Reading a body token by token

A cursor stands in a body and hands out one token at a time. Behind a line break
it compares the indentation of the next line with the levels that are open, and
owes a marker for each level that the line opens or closes. A line between two
levels stays in the inner one, and no line goes below the first. Every token
either uses up text, or an owed marker, or an open level (`step_weight`), so the
tokens of a body come to an end.
-/

namespace Dialogue

/-- How many open levels, innermost first, a line of this width closes; `base` is the
level below all of them. -/
def closedLevels (base width : Nat) : List Nat → Nat
  | [] => 0
  | top :: below =>
    if width < top ∧ width ≤ below.headD base then closedLevels base width below + 1 else 0

theorem closedLevels_le (base width : Nat) (levels : List Nat) :
    closedLevels base width levels ≤ levels.length := by
  induction levels with
  | nil => simp [closedLevels]
  | cons top below ih =>
    unfold closedLevels
    split
    · simpa using ih
    · simp

/-- A place in a body, with what has been learnt on the way there. -/
structure Cursor where
  rest : List Char
  position : Position := .start
  mode : Mode := .base
  /-- Whether nothing but indentation stands in front on this line. -/
  lineStart : Bool := true
  /-- The indentation of the first line. -/
  base : Nat := 0
  /-- The deeper levels that are open, innermost first. -/
  levels : List Nat := []
  owed : List TokenKind := []
  /-- Whether the blank lines in front of the body have been passed. -/
  started : Bool := false
deriving DecidableEq, Repr

namespace Cursor

def ofBody (body : List Char) : Cursor := { rest := body }

def marker (c : Cursor) (kind : TokenKind) : Token := ⟨kind, [], c.position⟩

def cut (c : Cursor) (kind : TokenKind) (n : Nat) : Token := ⟨kind, c.rest.take n, c.position⟩

def skip (c : Cursor) (n : Nat) : Cursor :=
  { c with rest := c.rest.drop n, position := c.position.advance (c.rest.take n) }

/-- Opens or closes levels for the line whose content begins here. -/
def measure (c : Cursor) : Cursor :=
  let width := c.position.column - 1
  let closed := closedLevels c.base width c.levels
  if c.rest = [] then c
  else if c.levels.headD c.base < width then
    { c with levels := width :: c.levels, owed := [.indent] }
  else { c with levels := c.levels.drop closed, owed := .replicate closed .dedent }

def enter (c : Cursor) (kind : TokenKind) : Cursor :=
  { c with mode := c.mode.after kind, lineStart := kind == .newline }

/-- The cursor with the blank lines in front of the body passed, its indentation being that
of the first line. -/
def start (c : Cursor) : Cursor :=
  { c with started := true, base := if c.started then c.base else c.position.column - 1 }

def leadLength (c : Cursor) : Nat := if c.started then 0 else blankLength c.rest

def stepContent (c : Cursor) : Token × Cursor :=
  match c.mode.tokenAt c.lineStart c.rest with
  | none => (c.cut .invalid c.rest.length, c.skip c.rest.length)
  | some (kind, n) =>
    let next := (c.skip n).enter kind
    (c.cut kind n, if kind = .newline then next.measure else next)

/-- The token at the end of the body: open levels are closed first. -/
def stepEnd (c : Cursor) : Token × Cursor :=
  match c.levels with
  | [] => (c.marker .endOfInput, c)
  | _ :: below => (c.marker .dedent, { c with levels := below })

def step (c : Cursor) : Token × Cursor :=
  match c.owed with
  | kind :: owed => (c.marker kind, { c with owed := owed })
  | [] =>
    if c.leadLength ≠ 0 then (c.cut .newline c.leadLength, (c.skip c.leadLength).start)
    else if c.rest = [] then c.start.stepEnd
    else c.start.stepContent

def weight (c : Cursor) : Nat := 3 * c.rest.length + c.owed.length + c.levels.length

@[simp] theorem enter_weight (c : Cursor) (kind : TokenKind) :
    (c.enter kind).weight = c.weight := rfl

@[simp] theorem start_weight (c : Cursor) : c.start.weight = c.weight := rfl

theorem measure_weight (c : Cursor) (h : c.owed = []) : c.measure.weight ≤ c.weight + 2 := by
  have hc := closedLevels_le c.base (c.position.column - 1) c.levels
  unfold measure weight
  simp only
  split
  · omega
  · split
    · simp [h]
      omega
    · simp only [h, List.length_replicate, List.length_drop, List.length_nil]
      omega

theorem skip_weight (c : Cursor) (n : Nat) (h : c.rest ≠ []) (hn : 0 < n) :
    (c.skip n).weight + 3 ≤ c.weight := by
  have hp := List.length_pos_iff.2 h
  simp only [skip, weight, List.length_drop]
  omega

theorem stepContent_weight (c : Cursor) (h : c.rest ≠ []) (ho : c.owed = []) :
    c.stepContent.2.weight < c.weight := by
  unfold stepContent
  split
  · have hw := skip_weight c c.rest.length h (List.length_pos_iff.2 h)
    simp only
    omega
  · rename_i kind n hk
    have hw := skip_weight c n h (Mode.tokenAt_pos _ _ _ _ _ hk)
    have he := enter_weight (c.skip n) kind
    simp only
    split
    · have hm := measure_weight ((c.skip n).enter kind) ho
      omega
    · omega

theorem stepEnd_weight (c : Cursor) (h : c.stepEnd.1.kind.isFinal = false) :
    c.stepEnd.2.weight < c.weight := by
  unfold stepEnd at h ⊢
  split
  · rename_i hl
    rw [hl] at h
    simp [marker, TokenKind.isFinal] at h
  · rename_i below hl
    simp only [weight, hl, List.length_cons]
    omega

theorem rest_ne_nil_of_leadLength (c : Cursor) (h : c.leadLength ≠ 0) : c.rest ≠ [] := by
  intro he
  apply h
  unfold leadLength
  rw [he]
  split <;> rfl

/-- Every token but the last brings the cursor closer to the end. -/
theorem step_weight (c : Cursor) (h : c.step.1.kind.isFinal = false) :
    c.step.2.weight < c.weight := by
  unfold step at h ⊢
  split
  · rename_i kind owed ho
    simp only [weight, ho, List.length_cons]
    omega
  · rename_i ho
    rw [ho] at h
    simp only at h
    split
    · rename_i hn
      have hr := rest_ne_nil_of_leadLength c hn
      have hw := skip_weight c c.leadLength hr (Nat.pos_of_ne_zero hn)
      rw [start_weight]
      omega
    · rename_i hn
      rw [if_neg hn] at h
      split
      · rename_i hr
        rw [if_pos hr] at h
        exact stepEnd_weight c.start h
      · rename_i hr
        exact stepContent_weight c.start hr ho

/-- All tokens from here on; the last one is the end of the body or what is invalid. -/
def tokens (c : Cursor) : List Token :=
  if _more : c.step.1.kind.isFinal = false then c.step.1 :: tokens c.step.2
  else [c.step.1]
termination_by c.weight
decreasing_by exact step_weight c _more

end Cursor

end Dialogue
