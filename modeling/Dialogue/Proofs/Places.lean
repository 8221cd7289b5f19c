import Dialogue.Proofs.Reading

/-!
# From line to line

Between two lines of a body stands a cursor, and the statements in front of it are
put together as far as they have been read. One place leads to another if reading
goes on to the same statements from both (`Leads`). A written line leads to the
place behind its line break, and the marker of a closed level to the place behind
the marker.
-/

namespace Dialogue

/-- A place in a body, with the statements read so far. -/
structure Place where
  cursor : Cursor
  assembly : Assembly

namespace Place

def result (e : BodyEnd) (p : Place) : Option (List Statement) :=
  match p.cursor.tokens? with
  | .error _ => none
  | .ok tokens => (p.assembly.read e tokens).toOption

/-- Reading goes on to the same statements from both places. -/
def Leads (p q : Place) : Prop := ∀ e, p.result e = q.result e

theorem Leads.trans {p q r : Place} (h : p.Leads q) (h' : q.Leads r) : p.Leads r :=
  fun e => (h e).trans (h' e)

theorem leads_of_walks {c d : Cursor} {a b : Assembly} {ts : List Token} (hw : c.Walks ts d)
    (h : ∀ e rest, d.tokens? = .ok rest → a.read e (ts ++ rest) = b.read e rest) :
    Leads ⟨c, a⟩ ⟨d, b⟩ := by
  intro e
  unfold result
  simp only
  rw [hw.tokens?]
  cases hd : d.tokens? with
  | error err => rfl
  | ok rest =>
    simp only [Except.map]
    rw [h e rest hd]

end Place

open Place

namespace Assembly

theorem read_item {e : BodyEnd} {t : Token} {rest : List Token} {item : Item} {n : Nat}
    {a b : Assembly} (hi : readItem e t rest = .ok (item, n)) (ha : a.add t item = .ok b) :
    a.read e (t :: rest) = b.read e (rest.drop n) := by
  have hk : t.kind ≠ .endOfInput := by
    intro hk
    simp [readItem, hk] at hi
  rw [read, if_neg hk, hi]
  simp only
  rw [ha]

theorem read_newline (e : BodyEnd) {t : Token} (rest : List Token) (a : Assembly)
    (hk : t.kind = .newline) : a.read e (t :: rest) = a.read e rest := by
  have hi : readItem e t rest = .ok (.space, 0) := by simp only [readItem, hk]
  exact read_item hi rfl

theorem read_indent (e : BodyEnd) {t : Token} (rest : List Token) (a : Assembly)
    (hk : t.kind = .indent) :
    a.read e (t :: rest) = { a with levels := .plain :: a.levels : Assembly }.read e rest := by
  have hi : readItem e t rest = .ok (.indent, 0) := by simp only [readItem, hk]
  exact read_item hi rfl

theorem read_dedent (e : BodyEnd) {t : Token} (rest : List Token) {a b : Assembly}
    (hk : t.kind = .dedent) (ha : a.dedent t = .ok b) :
    a.read e (t :: rest) = b.read e rest := by
  have hi : readItem e t rest = .ok (.dedent, 0) := by simp only [readItem, hk]
  exact read_item hi ha

end Assembly

namespace Cursor

/-- The rest of the line, up to its line break, takes the statements from `a` to `b`. -/
def ReadsLine (c : Cursor) (a : Assembly) (level : Nat) (following : List Char) (b : Assembly) :
    Prop :=
  ∃ ts d lineStart, Walks c ts d ∧
    Inside d .base lineStart (tabLevels level) ('\n' :: following) ∧
    ∀ e newline rest, newline.kind = .newline →
      a.read e (ts ++ newline :: rest) = b.read e rest

section

variable {c : Cursor} {a b : Assembly} {level indent : Nat} {line following : List Char}

theorem ReadsLine.close (h : c.ReadsLine a level following b) (hn : Next indent line following)
    (hle : indent ≤ level) :
    ∃ d, Leads ⟨c, a⟩ ⟨d, b⟩ ∧ Between d indent (level - indent) line := by
  obtain ⟨ts, d, lineStart, hw, hi, hr⟩ := h
  obtain ⟨t, f, hw', hk, hb⟩ := hi.newline_close hn hle
  refine ⟨f, leads_of_walks (hw.trans hw') ?_, hb⟩
  intro e rest _
  rw [List.append_assoc]
  exact hr e t rest hk

/-- A line in front of one that is deeper, but not on behalf of a shortcut option. -/
theorem ReadsLine.deepen (h : c.ReadsLine a level following b)
    (hn : Next (level + 1) line following) :
    ∃ d, Leads ⟨c, a⟩ ⟨d, { b with levels := .plain :: b.levels }⟩ ∧
      Between d (level + 1) 0 line := by
  obtain ⟨ts, d, lineStart, hw, hi, hr⟩ := h
  obtain ⟨t, u, f, hw', hk, hu, hb⟩ := hi.newline_open hn
  refine ⟨f, leads_of_walks (hw.trans hw') ?_, hb⟩
  intro e rest _
  rw [List.append_assoc]
  exact (hr e t (u :: rest) hk).trans (Assembly.read_indent e rest b hu)

theorem Between.leads_dedent {closing : Nat} (h : Between c level (closing + 1) line)
    (ha : ∀ t, a.dedent t = .ok b) :
    ∃ d, Leads ⟨c, a⟩ ⟨d, b⟩ ∧ Between d level closing line := by
  obtain ⟨t, d, hw, hk, hb⟩ := h.dedent
  refine ⟨d, leads_of_walks hw ?_, hb⟩
  intro e rest _
  exact Assembly.read_dedent e rest hk (ha t)

variable {closing : Nat} {block before : List Statement} {around : List Enclosing}
  {levels : List Opener}

theorem Between.leads_plain (h : Between c level (closing + 1) line) :
    ∃ d, Leads ⟨c, ⟨block, around, .plain :: levels⟩⟩ ⟨d, ⟨block, around, levels⟩⟩ ∧
      Between d level closing line :=
  h.leads_dedent fun _ => rfl

theorem Between.leads_shortcut {n : Nat} {label : String} {condition : Option Expr}
    (h : Between c level (closing + 1) line) :
    ∃ d, Leads ⟨c, ⟨block, .shortcut n label condition before :: around, .shortcut :: levels⟩⟩
        ⟨d, ⟨before ++ [.shortcut n label condition block], around, levels⟩⟩ ∧
      Between d level closing line :=
  h.leads_dedent fun _ => rfl

end

theorem Between.step_kind_ne_indent {c : Cursor} {level closing : Nat} {line : List Char}
    (h : Between c level closing line) : c.step.1.kind ≠ .indent := by
  refine (steps_step c).kind_ne_indent fun kind hk => ?_
  rcases h.markers with ⟨_, ho, _⟩ | ⟨_, _, ho, _⟩
  · rw [ho] at hk
    rw [List.eq_of_mem_replicate hk]
    nofun
  · rw [ho] at hk
    cases hk

/-- No level opens between two lines once the markers of the first one have passed. -/
theorem Between.tokens?_cons {c : Cursor} {level closing : Nat} {line : List Char}
    (h : Between c level closing line) {ts : List Token} (ht : c.tokens? = .ok ts) :
    ∃ t rest, ts = t :: rest ∧ t.kind ≠ .indent := by
  obtain ⟨rest, hrest⟩ := List.head?_eq_some_iff.1 (head?_tokens? ht)
  exact ⟨_, rest, hrest, h.step_kind_ne_indent⟩

end Cursor

end Dialogue
