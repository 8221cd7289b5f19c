import Dialogue.Proofs.Positions

/-!
# Lines and columns of tokens

A cursor that has handed out a text stands behind it, and tokens begin where the
cursor stands. So the line and the column of a token can be counted in the text of
all that has been handed out before it (`tokens_placed_behind_text`), whichever of
the two ways to go on the text has been handed out by.
-/

namespace Dialogue

namespace Position

/-- The position behind a text, counted in it: its line feeds tell the line, and the characters
behind the last of them the column. -/
def behind (cs : List Char) : Position :=
  ⟨1 + cs.count '\n', 1 + (cs.reverse.takeWhile (· ≠ '\n')).length⟩

theorem behind_append_newline (cs : List Char) :
    behind (cs ++ ['\n']) = ⟨(behind cs).line + 1, 1⟩ := by
  simp [behind, Nat.add_assoc]

theorem behind_append_of_ne (cs : List Char) {c : Char} (h : c ≠ '\n') :
    behind (cs ++ [c]) = ⟨(behind cs).line, (behind cs).column + 1⟩ := by
  simp [behind, h, Nat.add_assoc]

theorem behind_append_singleton (cs : List Char) (c : Char) :
    behind (cs ++ [c]) = (behind cs).next c := by
  unfold next
  split
  · rename_i hc
    rw [hc, behind_append_newline]
  · rename_i hc
    exact behind_append_of_ne cs hc

theorem start_advance (cs : List Char) : start.advance cs = behind cs := by
  induction cs using List.reverseRecOn with
  | nil => rfl
  | append_singleton cs c ih =>
    rw [advance_append, ih, behind_append_singleton]
    rfl

end Position

/-- Every token, be it invalid or without any text, begins where those before it end. -/
theorem Cursor.position_of_tokens {c : Cursor} {before after : List Token} {t : Token}
    (h : c.tokens = before ++ t :: after) :
    t.position = c.position.advance (before.flatMap Token.text) := by
  induction c using tokens.induct generalizing before with
  | case1 c more ih =>
    rw [tokens_of_not_isFinal c more] at h
    cases before with
    | nil =>
      obtain ⟨rfl, -⟩ := List.cons.inj h
      exact (step_position c).1
    | cons first before =>
      obtain ⟨rfl, hrest⟩ := List.cons.inj h
      rw [ih hrest, (step_position c).2, List.flatMap_cons, Position.advance_append]
  | case2 c last =>
    rw [tokens_of_isFinal c (by simpa using last)] at h
    cases before with
    | nil =>
      obtain ⟨rfl, -⟩ := List.cons.inj h
      exact (step_position c).1
    | cons first before =>
      obtain ⟨-, hrest⟩ := List.cons.inj h
      cases before <;> cases hrest

namespace Lexer

variable {l : Lexer} {calls : List Call} {before after : List Reply} {t : Token}

/-- A call moves the walk behind the text that it hands out. -/
theorem Called.cursor_position {l' : Lexer} {r : Reply} (h : l.Called r l') :
    l'.cursor.position = l.cursor.position.advance (r.text l.error.isSome) := by
  have hstep := (Cursor.step_position l.cursor).2
  cases h with
  | told error => simp [Reply.text, error]
  | failed error => simpa [Reply.text, error, failure] using hstep
  | token | item => exact hstep
  | finished => rfl

theorem Called.position {l' : Lexer} (h : l.Called (.token t) l') :
    t.position = l.cursor.position := by
  cases h with
  | token | item => exact (Cursor.step_position l.cursor).1

/-- A token stands behind the text of all replies before it. -/
theorem position_of_replies (h : l.replies calls = before ++ .token t :: after) :
    t.position = l.cursor.position.advance (Reply.texts l.error.isSome before) := by
  induction before generalizing l calls with
  | nil =>
    cases calls with
    | nil => cases h
    | cons c calls =>
      obtain ⟨hreply, -⟩ := List.cons.inj h
      have hcalled := l.called c
      rw [hreply] at hcalled
      exact hcalled.position
  | cons reply before ih =>
    cases calls with
    | nil => cases h
    | cons c calls =>
      obtain ⟨rfl, hrest⟩ := List.cons.inj h
      rw [ih hrest, (l.called c).cursor_position, (l.called c).isSome_error, Reply.texts,
        Position.advance_append]

end Lexer

/-- The line and the column of every token of a body, be it invalid or a marker without text, are
those behind the text of all tokens before it; and so are those of a token that is handed out after
any calls. -/
theorem tokens_placed_behind_text (body : List Char) :
    (∀ before t after, Body.tokens body = before ++ t :: after →
      t.position = .behind (before.flatMap Token.text)) ∧
    ∀ calls before t after, (Lexer.ofBody body).replies calls = before ++ .token t :: after →
      t.position = .behind (Lexer.Reply.texts false before) := by
  constructor
  · intro before t after h
    rw [← Position.start_advance]
    exact Cursor.position_of_tokens h
  · intro calls before t after h
    rw [← Position.start_advance]
    exact Lexer.position_of_replies h

/-- A line break of two characters, an indented line, and text that belongs to no token. -/
example : (Body.tokens "→\r\n\ta[[b\n".toList).map Token.position =
    [⟨1, 1⟩, ⟨1, 2⟩, ⟨2, 2⟩, ⟨2, 2⟩, ⟨2, 3⟩, ⟨2, 5⟩, ⟨2, 6⟩] := by
  cbv

end Dialogue
