import Dialogue.Body.Lexer

/-!
# Steps of a cursor

What one step through a body can be: a marker that is owed, the blank lines in front
of the body, its end with the levels that are still open there, or what the text in
front of the cursor begins with. What all steps have in common is read off these ways
(`Cursor.Steps`, and for the text in front `Mode.Finds`), not off the definitions.
-/

namespace Dialogue

/-- The kinds of tokens that cover text. -/
def TokenKind.covering : List TokenKind :=
  [.text, .identifier, .newline, .optionStart, .optionSep, .optionEnd, .commandStart, .commandEnd,
    .shortcutMarker]

def TokenKind.delimiters : List TokenKind :=
  [.optionStart, .optionSep, .optionEnd, .commandStart, .commandEnd]

theorem TokenKind.of_mem_covering {kind : TokenKind} (h : kind ∈ covering) :
    kind ≠ .indent ∧ kind ≠ .dedent ∧ kind.isFinal = false := by
  revert kind
  decide

theorem TokenKind.of_mem_delimiters {kind : TokenKind} (h : kind ∈ delimiters) :
    kind ∈ covering ∧ kind ≠ .text ∧ kind ≠ .identifier ∧ kind ≠ .newline := by
  revert kind
  decide

namespace Mode

section

variable {mode : Mode} {lineStart : Bool} {cs : List Char} {kind : TokenKind} {n : Nat}

theorem delimiter?_mem (h : mode.delimiter? cs = some kind) : kind ∈ TokenKind.delimiters := by
  unfold delimiter? at h
  split at h <;> cases h <;> decide

theorem run_eq_some {k : TokenKind} {m : Nat} (h : run k m = some (kind, n)) :
    kind = k ∧ n = m ∧ m ≠ 0 := by
  unfold run at h
  split at h
  · cases h
  · rename_i hm
    cases h
    exact ⟨rfl, rfl, hm⟩

/-- All that the text in front can begin with: an arrow, a delimiter of the mode, a line break, or
a text or a destination that goes on as far as it can. -/
inductive Finds (mode : Mode) (lineStart : Bool) (cs : List Char) : TokenKind → Nat → Prop
  | arrow {rest : List Char} (prose : mode = base) (front : lineStart = true)
    (text : cs = '-' :: '>' :: rest) : Finds mode lineStart cs .shortcutMarker 2
  | delimiter {kind : TokenKind} (found : mode.delimiter? cs = some kind) :
    Finds mode lineStart cs kind (delimiterLength kind)
  | newline (prose : mode = base) (breaks : atLineBreak cs = true) :
    Finds mode lineStart cs .newline (blankLength cs)
  | text (outside : mode ≠ destination) (more : mode.textLength cs ≠ 0) :
    Finds mode lineStart cs .text (mode.textLength cs)
  | destination (inside : mode = destination) (more : destinationLength cs ≠ 0) :
    Finds mode lineStart cs .identifier (destinationLength cs)

theorem finds_of_tokenAt (h : mode.tokenAt lineStart cs = some (kind, n)) :
    mode.Finds lineStart cs kind n := by
  unfold tokenAt at h
  split at h
  · rename_i harrow
    obtain ⟨hmode, hfront, harrow⟩ := harrow
    cases h
    unfold atArrow at harrow
    split at harrow
    · exact .arrow hmode hfront rfl
    · cases harrow
  · split at h
    · rename_i hdelimiter
      cases h
      exact .delimiter hdelimiter
    · split at h
      · split at h
        · rename_i hbreak
          cases h
          exact .newline rfl hbreak
        · obtain ⟨rfl, rfl, hmore⟩ := run_eq_some h
          exact .text nofun hmore
      · obtain ⟨rfl, rfl, hmore⟩ := run_eq_some h
        exact .destination rfl hmore
      · rename_i houtside
        obtain ⟨rfl, rfl, hmore⟩ := run_eq_some h
        exact .text houtside hmore

theorem tokenAt_kind (h : mode.tokenAt lineStart cs = some (kind, n)) :
    kind ∈ TokenKind.covering := by
  cases finds_of_tokenAt h with
  | arrow | newline | text | destination => decide
  | delimiter found => exact (TokenKind.of_mem_delimiters (delimiter?_mem found)).1

end

end Mode

namespace Cursor

theorem cut_text_append_skip (c : Cursor) (kind : TokenKind) (n : Nat) :
    (c.cut kind n).text ++ (c.skip n).rest = c.rest :=
  List.take_append_drop n c.rest

theorem measure_frame (c : Cursor) :
    ∃ levels owed, c.measure = { c with levels := levels, owed := owed } := by
  unfold measure
  simp only
  split
  · exact ⟨c.levels, c.owed, rfl⟩
  · split
    · exact ⟨_, _, rfl⟩
    · exact ⟨_, _, rfl⟩

theorem start_of_started {c : Cursor} (h : c.started = true) : c.start = c := by
  obtain ⟨⟩ := c
  simp only [start] at h ⊢
  subst h
  rfl

theorem step_of_owed {c : Cursor} {kind : TokenKind} {owed : List TokenKind}
    (ho : c.owed = kind :: owed) : c.step = (c.marker kind, { c with owed := owed }) := by
  unfold step
  rw [ho]

theorem step_of_started {c : Cursor} (hs : c.started = true) (ho : c.owed = []) :
    c.step = if c.rest = [] then c.stepEnd else c.stepContent := by
  have hlead : ¬c.leadLength ≠ 0 := by simp [leadLength, hs]
  unfold step
  rw [ho]
  simp only
  rw [if_neg hlead, start_of_started hs]

/-- All that a step can do. Only behind the markers that are owed, and behind the blank lines in
front of the body, is anything read. -/
inductive Steps (c : Cursor) : Token → Cursor → Prop
  | owed {kind : TokenKind} {owed : List TokenKind} (markers : c.owed = kind :: owed) :
    Steps c (c.marker kind) { c with owed := owed }
  | lead (settled : c.owed = []) (fresh : c.started = false) :
    Steps c (c.cut .newline c.leadLength) (c.skip c.leadLength).start
  | last (settled : c.owed = []) (ended : c.rest = []) (closed : c.levels = []) :
    Steps c (c.marker .endOfInput) c.start
  | close {top : Nat} {below : List Nat} (settled : c.owed = []) (ended : c.rest = [])
    (opened : c.levels = top :: below) :
    Steps c (c.marker .dedent) { c.start with levels := below }
  | invalid (settled : c.owed = []) (more : c.rest ≠ [])
    (unknown : c.mode.tokenAt c.lineStart c.rest = none) :
    Steps c (c.cut .invalid c.rest.length) (c.start.skip c.rest.length)
  | newline {n : Nat} (settled : c.owed = []) (more : c.rest ≠ [])
    (found : c.mode.tokenAt c.lineStart c.rest = some (.newline, n)) :
    Steps c (c.cut .newline n) ((c.start.skip n).enter .newline).measure
  | token {kind : TokenKind} {n : Nat} (settled : c.owed = []) (more : c.rest ≠ [])
    (found : c.mode.tokenAt c.lineStart c.rest = some (kind, n)) (inner : kind ≠ .newline) :
    Steps c (c.cut kind n) ((c.start.skip n).enter kind)

theorem steps_step (c : Cursor) : c.Steps c.step.1 c.step.2 := by
  unfold step
  split
  · rename_i kind owed ho
    exact .owed ho
  · rename_i ho
    split
    · rename_i hlead
      refine .lead ho ?_
      cases hs : c.started with
      | false => rfl
      | true => exact absurd (by simp [leadLength, hs]) hlead
    · split
      · rename_i hr
        unfold stepEnd
        split
        · rename_i hl
          exact .last ho hr hl
        · rename_i top below hl
          exact .close ho hr hl
      · rename_i hr
        unfold stepContent
        split
        · rename_i hnone
          exact .invalid ho hr hnone
        · rename_i kind n hsome
          by_cases hk : kind = .newline
          · subst hk
            exact .newline ho hr hsome
          · simp only [if_neg hk]
            exact .token ho hr hsome hk

/-- Nothing but changes of indentation is owed. -/
def OwesLevels (c : Cursor) : Prop := ∀ kind ∈ c.owed, kind = .indent ∨ kind = .dedent

theorem owesLevels_ofBody (body : List Char) : (ofBody body).OwesLevels := by
  intro kind hk
  simp [ofBody] at hk

section

variable {c d : Cursor} {t : Token}

theorem OwesLevels.head {kind : TokenKind} {owed : List TokenKind} (h : c.OwesLevels)
    (markers : c.owed = kind :: owed) : kind = .indent ∨ kind = .dedent :=
  h kind (by rw [markers]; exact List.mem_cons_self)

theorem OwesLevels.measure (h : c.OwesLevels) : c.measure.OwesLevels := by
  unfold Cursor.measure OwesLevels
  intro kind hk
  simp only at hk
  split at hk
  · exact h kind hk
  · split at hk
    · simp only [List.mem_singleton] at hk
      exact Or.inl hk
    · exact Or.inr (List.eq_of_mem_replicate hk)

theorem Steps.owesLevels (h : c.Steps t d) (ho : c.OwesLevels) : d.OwesLevels := by
  cases h with
  | @owed kind owed markers =>
    exact fun k hk => ho k (by rw [markers]; exact List.mem_cons_of_mem kind hk)
  | @newline n => exact OwesLevels.measure (c := (c.start.skip n).enter .newline) ho
  | lead | last | close | invalid | token => exact ho

theorem OwesLevels.step (h : c.OwesLevels) : c.step.2.OwesLevels :=
  (steps_step c).owesLevels h

theorem Steps.text_append_rest (h : c.Steps t d) : t.text ++ d.rest = c.rest := by
  cases h with
  | owed | last | close => rfl
  | lead => exact cut_text_append_skip c .newline c.leadLength
  | invalid => exact cut_text_append_skip c .invalid c.rest.length
  | @newline n =>
    obtain ⟨levels, owed, hframe⟩ := measure_frame ((c.start.skip n).enter .newline)
    rw [hframe]
    exact cut_text_append_skip c .newline n
  | @token kind n => exact cut_text_append_skip c kind n

/-- A step cuts its token off the text that is left. -/
theorem step_text_append_rest (c : Cursor) : c.step.1.text ++ c.step.2.rest = c.rest :=
  (steps_step c).text_append_rest

theorem Steps.position (h : c.Steps t d) :
    t.position = c.position ∧ d.position = c.position.advance t.text := by
  cases h with
  | owed | lead | last | close | invalid | token => exact ⟨rfl, rfl⟩
  | @newline n =>
    obtain ⟨levels, owed, hframe⟩ := measure_frame ((c.start.skip n).enter .newline)
    rw [hframe]
    exact ⟨rfl, rfl⟩

/-- A token stands where the cursor does, and the cursor moves behind its text. -/
theorem step_position (c : Cursor) :
    c.step.1.position = c.position ∧ c.step.2.position = c.position.advance c.step.1.text :=
  (steps_step c).position

theorem Steps.keeps (h : c.Steps t d) (hs : c.started = true) :
    d.started = true ∧ d.base = c.base := by
  cases h with
  | owed => exact ⟨hs, rfl⟩
  | lead _ fresh =>
    rw [fresh] at hs
    cases hs
  | last | close | invalid | token => exact ⟨rfl, if_pos hs⟩
  | @newline n =>
    obtain ⟨levels, owed, hframe⟩ := measure_frame ((c.start.skip n).enter .newline)
    rw [hframe]
    exact ⟨rfl, if_pos hs⟩

theorem Steps.rest_of_isFinal (h : c.Steps t d) (ho : c.OwesLevels)
    (hf : t.kind.isFinal = true) : d.rest = [] := by
  cases h with
  | owed markers => rcases ho.head markers with rfl | rfl <;> cases hf
  | last _ ended => exact ended
  | invalid => exact List.drop_length
  | lead | close | newline => cases hf
  | token _ _ found =>
    have hmore := (TokenKind.of_mem_covering (Mode.tokenAt_kind found)).2.2
    exact absurd (hmore.symm.trans hf) Bool.false_ne_true

theorem Steps.kind_ne_indent (h : c.Steps t d) (ho : ∀ kind ∈ c.owed, kind ≠ .indent) :
    t.kind ≠ .indent := by
  cases h with
  | @owed kind owed markers => exact ho kind (by rw [markers]; exact List.mem_cons_self)
  | lead | last | close | invalid | newline => nofun
  | token _ _ found => exact (TokenKind.of_mem_covering (Mode.tokenAt_kind found)).1

end

end Cursor

end Dialogue
