import Dialogue.Proofs.Joining

/-!
# Where tokens stand

A cursor hands out its tokens at its own position and moves behind their text, so
each token begins where the text of those before it ends (`Cursor.placed_tokens?`).
Of the tokens only line breaks hold a line feed: up to the next line break all tokens
stand on one line.
-/

namespace Dialogue

namespace Mode

theorem newline_not_mem_delimiter {mode : Mode} {cs : List Char} {kind : TokenKind}
    (h : mode.delimiter? cs = some kind) : '\n' ∉ cs.take (delimiterLength kind) := by
  unfold delimiter? at h
  split at h <;> cases h <;> simp [delimiterLength]

theorem newline_not_mem_destination (cs : List Char) :
    '\n' ∉ cs.take (destinationLength cs) := by
  have hindent : ∀ ds : List Char, '\n' ∉ ds.takeWhile Text.isIndent := by
    intro ds hmem
    have hn := List.all_eq_true.1 (List.all_takeWhile (p := Text.isIndent)) _ hmem
    revert hn
    decide
  have hword : ∀ ds : List Char, '\n' ∉ ds.takeWhile isDestinationChar := by
    intro ds hmem
    have hn := List.all_eq_true.1 (List.all_takeWhile (p := isDestinationChar)) _ hmem
    revert hn
    decide
  unfold destinationLength
  simp only
  split
  · simp
  · rw [List.take_add, List.take_add, indentLength, indentLength, take_length_takeWhile,
      take_length_takeWhile, take_length_takeWhile]
    simp [hindent, hword]

theorem newline_not_mem_tokenAt {mode : Mode} {lineStart : Bool} {cs : List Char}
    {kind : TokenKind} {n : Nat} (h : mode.tokenAt lineStart cs = some (kind, n))
    (hk : kind ≠ .newline) : '\n' ∉ cs.take n := by
  cases finds_of_tokenAt h with
  | arrow _ _ text => simp [text]
  | delimiter found => exact newline_not_mem_delimiter found
  | newline => exact absurd rfl hk
  | text => exact (take_textLength mode cs).2
  | destination => exact newline_not_mem_destination cs

end Mode

/-- Tokens that stand one behind another from `p` on; only line breaks hold a line feed. -/
def Placed (p : Position) : List Token → Prop
  | [] => True
  | t :: ts => t.position = p ∧ (t.kind ≠ .newline → '\n' ∉ t.text) ∧ Placed (p.advance t.text) ts

namespace Position

theorem advance_line_of_not_mem (p : Position) {cs : List Char} (h : '\n' ∉ cs) :
    (p.advance cs).line = p.line := by
  rw [advance_line, List.count_eq_zero.2 h]
  rfl

end Position

section

variable {p : Position} {t : Token} {used rest : List Token}

theorem Placed.behind (h : Placed p (used ++ rest)) :
    ∃ q, Placed q rest ∧ ((∀ u ∈ used, u.kind ≠ .newline) → q.line = p.line) := by
  induction used generalizing p with
  | nil => exact ⟨p, h, fun _ => rfl⟩
  | cons u used ih =>
    obtain ⟨-, hnewline, hbehind⟩ := h
    obtain ⟨q, hq, hline⟩ := ih hbehind
    refine ⟨q, hq, fun hkinds => ?_⟩
    have hu := hnewline (hkinds u List.mem_cons_self)
    rw [hline fun v hv => hkinds v (List.mem_cons_of_mem u hv), p.advance_line_of_not_mem hu]

theorem Placed.line_eq (h : Placed p (used ++ t :: rest)) (hused : ∀ u ∈ used, u.kind ≠ .newline) :
    t.position.line = p.line := by
  obtain ⟨q, hq, hline⟩ := h.behind
  rw [hq.1]
  exact hline hused

end

namespace Cursor

theorem Steps.newline_not_mem {c d : Cursor} {t : Token} (h : c.Steps t d)
    (hk : t.kind ≠ .newline) (hv : t.kind ≠ .invalid) : '\n' ∉ t.text := by
  cases h with
  | owed | last | close => exact List.not_mem_nil
  | lead | newline => exact absurd rfl hk
  | invalid => exact absurd rfl hv
  | token _ _ found => exact Mode.newline_not_mem_tokenAt found hk

/-- The tokens of a body stand one behind another. -/
theorem placed_tokens? (c : Cursor) (ts : List Token) (h : c.tokens? = .ok ts) :
    Placed c.position ts := by
  fun_induction Cursor.tokens? c generalizing ts with
  | case1 c more rest hrest ih =>
    cases h
    obtain ⟨hposition, hnext⟩ := step_position c
    refine ⟨hposition, fun hk => (steps_step c).newline_not_mem hk ?_, ?_⟩
    · intro hv
      rw [hv] at more
      cases more
    · rw [← hnext]
      exact ih rest hrest
  | case2 c more e he ih => cases h
  | case3 => cases h
  | case4 c _ hvalid =>
    cases h
    exact ⟨(step_position c).1, fun hk => (steps_step c).newline_not_mem hk hvalid, trivial⟩

end Cursor

end Dialogue
