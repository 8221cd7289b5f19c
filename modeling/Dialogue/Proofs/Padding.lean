import Dialogue.Proofs.Kinship

/-!
# Blanks at the end of a line

Spaces and tabs behind a line belong to the text that the line ends with, or are a
text of their own behind a bracket. No other token of the line changes
(`Lexes.append_pad`).
-/

namespace Dialogue

/-- Spaces and tabs. -/
def Blanks (pad : List Char) : Prop := ∀ c ∈ pad, Text.isIndent c = true

variable {pad cs : List Char}

theorem Blanks.tail {c : Char} (h : Blanks (c :: pad)) : Blanks pad :=
  fun d hd => h d (List.mem_cons_of_mem c hd)

theorem Blanks.not_mem (h : Blanks pad) {d : Char} (hd : Text.isIndent d = false) : d ∉ pad := by
  intro hmem
  rw [h d hmem] at hd
  cases hd

theorem Blanks.isBlank (h : Blanks pad) : ∀ c ∈ pad, Text.isBlank c = true :=
  fun c hc => Text.isBlank_of_isIndent c (h c hc)

theorem Blanks.trim_append (h : Blanks pad) (cs : List Char) :
    Text.trim (cs ++ pad) = Text.trim cs := by
  unfold Text.trim Text.trimStart
  rw [List.dropWhile_append]
  split
  · rename_i hnone
    rw [List.isEmpty_iff.1 hnone, List.dropWhile_eq_nil_iff.2 h.isBlank]
  · exact Text.trimEnd_append_blanks _ pad h.isBlank

theorem Blanks.trim_eq_nil (h : Blanks pad) : Text.trim pad = [] := h.trim_append []

theorem head?_append_pad (cs : List Char) (h : Blanks pad) {d : Char}
    (hd : Text.isIndent d = false) : (cs ++ pad).head? = some d ↔ cs.head? = some d := by
  cases cs with
  | nil =>
    have hnone : pad.head? ≠ some d := fun hhead => h.not_mem hd (List.mem_of_mem_head? hhead)
    simp [hnone]
  | cons c cs => rfl

namespace Mode

theorem atLineBreak_append_pad (h : Blanks pad) (c : Char) (cs : List Char) :
    atLineBreak (c :: cs ++ pad) = atLineBreak (c :: cs) := by
  have hhead := head?_append_pad cs h (d := '\n') (by decide)
  rw [List.cons_append, atLineBreak_cons, atLineBreak_cons, Bool.eq_iff_iff]
  simp only [Bool.or_eq_true, Bool.and_eq_true, beq_iff_eq, hhead]

theorem atArrow_append_pad (h : Blanks pad) (c : Char) (cs : List Char) :
    atArrow (c :: cs ++ pad) = atArrow (c :: cs) := by
  have hhead := head?_append_pad cs h (d := '>') (by decide)
  rw [List.cons_append, atArrow_cons, atArrow_cons, Bool.eq_iff_iff]
  simp only [Bool.and_eq_true, beq_iff_eq, hhead]

theorem delimiter?_append_pad (mode : Mode) (h : Blanks pad) (c : Char) (cs : List Char) :
    mode.delimiter? (c :: cs ++ pad) = mode.delimiter? (c :: cs) := by
  have hbrackets : ∀ d ∈ ['[', ']', '<', '>'], Text.isIndent d = false := by simp [Text.isIndent]
  exact delimiter?_congr mode c fun d hd => head?_append_pad cs h (hbrackets d hd)

theorem stopsText_append_pad (mode : Mode) (h : Blanks pad) (c : Char) (cs : List Char) :
    mode.stopsText (c :: cs ++ pad) = mode.stopsText (c :: cs) := by
  unfold stopsText
  rw [atLineBreak_append_pad h, delimiter?_append_pad mode h]

theorem textLength_pad (mode : Mode) (h : Blanks pad) : mode.textLength pad = pad.length := by
  induction pad with
  | nil => rfl
  | cons c pad ih =>
    rw [textLength_blank mode (h c List.mem_cons_self), ih h.tail, List.length_cons]

/-- Blanks belong to a text in front of them, and to nothing else. -/
theorem textLength_append_pad (mode : Mode) (h : Blanks pad) (cs : List Char) :
    mode.textLength (cs ++ pad) =
      if mode.textLength cs = cs.length then cs.length + pad.length else mode.textLength cs := by
  have hpad : pad = [] ∨ mode.textLength pad = mode.textLength pad.tail + 1 := by
    cases pad with
    | nil => exact .inl rfl
    | cons c pad => exact .inr (textLength_blank mode (h c List.mem_cons_self) pad)
  rw [textLength_append_of_agree mode cs pad (fun c ds _ => stopsText_append_pad mode h c ds)
    (fun d ds _ => atLineBreak_append_pad h d ds) (hpad.imp_right .inr), textLength_pad mode h]

theorem takeWhile_append_of_lt {test : Char → Bool} {ds : List Char} (pad : List Char)
    (hlt : (ds.takeWhile test).length < ds.length) :
    (ds ++ pad).takeWhile test = ds.takeWhile test := by
  rw [List.takeWhile_append, if_neg (by omega)]

theorem destinationLength_append (pad : List Char) (hlt : destinationLength cs < cs.length)
    (hpos : 0 < destinationLength cs) :
    destinationLength (cs ++ pad) = destinationLength cs := by
  unfold destinationLength at hlt hpos ⊢
  simp only at hlt hpos ⊢
  split at hlt
  · rename_i hnone
    rw [if_pos hnone] at hpos
    cases hpos
  · have hlead : indentLength (cs ++ pad) = indentLength cs := by
      unfold indentLength at hlt ⊢
      rw [takeWhile_append_of_lt pad (by omega)]
    have hdrop : ∀ n, n ≤ cs.length → (cs ++ pad).drop n = cs.drop n ++ pad :=
      fun n hn => List.drop_append_of_le_length hn
    have hword : (cs.drop (indentLength cs) ++ pad).takeWhile isDestinationChar =
        (cs.drop (indentLength cs)).takeWhile isDestinationChar := by
      refine takeWhile_append_of_lt pad ?_
      rw [List.length_drop]
      omega
    have htail : ∀ n, n ≤ cs.length → indentLength (cs.drop n) < cs.length - n →
        indentLength (cs.drop n ++ pad) = indentLength (cs.drop n) := by
      intro n hn hshort
      unfold indentLength at hshort ⊢
      rw [takeWhile_append_of_lt pad (by rw [List.length_drop]; exact hshort)]
    rw [hlead, hdrop _ (by omega), hword, hdrop _ (by omega), htail _ (by omega) (by omega)]

def kinds : Mode → List TokenKind
  | base => [.text, .optionStart, .commandStart, .shortcutMarker]
  | option => [.text, .optionSep, .optionEnd]
  | destination => [.identifier, .optionEnd]
  | command => [.text, .commandEnd]

theorem delimiter?_mem_kinds {mode : Mode} {kind : TokenKind}
    (h : mode.delimiter? cs = some kind) :
    kind ∈ mode.kinds ∧ kind ≠ .shortcutMarker ∧ kind ≠ .text := by
  unfold delimiter? at h
  split at h <;> cases h <;> decide

theorem tokenAt_mem_kinds {mode : Mode} {lineStart : Bool} {kind : TokenKind} {n : Nat}
    (h : mode.tokenAt lineStart cs = some (kind, n)) (hk : kind ≠ .newline) :
    kind ∈ mode.kinds ∧ (kind = .shortcutMarker → lineStart = true) ∧
      (kind = .text → n = mode.textLength cs) := by
  cases finds_of_tokenAt h with
  | arrow prose front =>
    subst prose
    exact ⟨by decide, fun _ => front, nofun⟩
  | delimiter found =>
    obtain ⟨hmem, harrow, htext⟩ := delimiter?_mem_kinds found
    exact ⟨hmem, fun he => absurd he harrow, fun he => absurd he htext⟩
  | newline => exact absurd rfl hk
  | text outside =>
    refine ⟨?_, nofun, fun _ => rfl⟩
    cases mode with
    | destination => exact absurd rfl outside
    | base | option | command => decide
  | destination inside =>
    subst inside
    exact ⟨by decide, nofun, nofun⟩

/-- A line ends with text, behind a bracket that closes, or behind an arrow. -/
theorem tokenAt_closing {mode : Mode} {lineStart : Bool} {kind : TokenKind} {n : Nat}
    (hfound : mode.tokenAt lineStart cs = some (kind, n)) (hk : kind ≠ .newline)
    (hbase : mode.after kind = .base) : kind = .text ∨ kind ∈ TokenKind.closing := by
  have hclosing : ∀ k ∈ mode.kinds, mode.after k = .base → k = .text ∨ k ∈ TokenKind.closing := by
    cases mode <;> decide
  exact hclosing kind (tokenAt_mem_kinds hfound hk).1 hbase

theorem run_of_ne_zero (kind : TokenKind) {n : Nat} (h : n ≠ 0) : run kind n = some (kind, n) :=
  if_neg h

/-- Blanks behind a line change none of its tokens, but for the text that it ends with. -/
theorem tokenAt_append_pad {mode : Mode} {lineStart : Bool} {kind : TokenKind} {n : Nat}
    (h : Blanks pad) (hfound : mode.tokenAt lineStart cs = some (kind, n)) (hk : kind ≠ .newline)
    (hbase : n = cs.length → mode.after kind = .base) :
    mode.tokenAt lineStart (cs ++ pad) =
      some (kind, if n = cs.length ∧ kind = .text then n + pad.length else n) := by
  have hpos := tokenAt_pos _ _ _ _ _ hfound
  have hle := tokenAt_le hfound
  cases cs with
  | nil =>
    rw [List.length_nil] at hle
    omega
  | cons c cs =>
    unfold tokenAt at hfound ⊢
    rw [atArrow_append_pad h, delimiter?_append_pad mode h, atLineBreak_append_pad h]
    split at hfound
    · rename_i harrow
      cases hfound
      rw [if_pos harrow, if_neg (by simp)]
    · rename_i harrow
      rw [if_neg harrow]
      split at hfound
      · rename_i hdelimiter
        cases hfound
        rw [if_neg fun hboth => (delimiter?_mem_kinds hdelimiter).2.2 hboth.2]
      · -- Inside of brackets the line does not end, so the run stops in front of its end.
        split at hfound
        · split at hfound
          · cases hfound
            exact absurd rfl hk
          · rename_i hbreak
            obtain ⟨rfl, rfl, -⟩ := run_eq_some hfound
            rw [if_neg hbreak, textLength_append_pad base h]
            simp only [and_true]
            split
            · rename_i hall
              rw [run_of_ne_zero _ (by omega), hall]
            · exact run_of_ne_zero _ (by omega)
        · obtain ⟨rfl, rfl, -⟩ := run_eq_some hfound
          have hlt : destinationLength (c :: cs) < (c :: cs).length :=
            Nat.lt_of_le_of_ne hle fun heq => by cases hbase heq
          rw [if_neg (by simp), destinationLength_append pad hlt hpos]
          exact run_of_ne_zero _ (by omega)
        · rename_i hother _
          obtain ⟨rfl, rfl, -⟩ := run_eq_some hfound
          have hne : mode.textLength (c :: cs) ≠ (c :: cs).length := fun heq => hother (hbase heq)
          rw [if_neg fun hboth => hne hboth.1, textLength_append_pad mode h, if_neg hne]
          exact run_of_ne_zero _ (by omega)

theorem tokenAt_pad (h : Blanks pad) (hne : pad ≠ []) :
    base.tokenAt false pad = some (.text, pad.length) := by
  obtain ⟨c, pad, rfl⟩ := List.exists_cons_of_ne_nil hne
  have hstop : base.stopsText (c :: pad) = false := stopsText_blank base (h c List.mem_cons_self) pad
  simp only [stopsText, Bool.or_eq_false_iff, Option.isSome_eq_false_iff, Option.isNone_iff_eq_none]
    at hstop
  simp [tokenAt, hstop.1, hstop.2, textLength_pad base h, run]

end Mode

/-- The pieces of a line with blanks behind it. -/
inductive Padded (pad : List Char) :
    List (TokenKind × List Char) → List (TokenKind × List Char) → Prop
  | text (cs : List Char) : Padded pad [(.text, cs)] [(.text, cs ++ pad)]
  | closing {kind : TokenKind} (h : kind ∈ TokenKind.closing) (cs : List Char) :
      Padded pad [(kind, cs)] [(kind, cs), (.text, pad)]
  | cons (piece : TokenKind × List Char) {pieces others : List (TokenKind × List Char)}
      (rest : Padded pad pieces others) : Padded pad (piece :: pieces) (piece :: others)

theorem Lexes.of_nil {mode : Mode} {lineStart : Bool} {pieces : List (TokenKind × List Char)}
    (h : Lexes mode lineStart [] pieces) : mode = .base ∧ pieces = [] := by
  generalize hcs : [] = cs at h
  cases h with
  | done => exact ⟨rfl, rfl⟩
  | piece found =>
    subst hcs
    have hpos := Mode.tokenAt_pos _ _ _ _ _ found
    have hle := Mode.tokenAt_le found
    rw [List.length_nil] at hle
    omega

theorem Lexes.blanks (h : Blanks pad) (hne : pad ≠ []) : Lexes .base false pad [(.text, pad)] := by
  have hrest : Lexes (Mode.base.after .text) false (pad.drop pad.length) [] := by
    rw [List.drop_length]
    exact .done false
  have hlexes := Lexes.piece (Mode.tokenAt_pad h hne) (by decide) hrest
  rw [List.take_length] at hlexes
  exact hlexes

/-- Blanks behind a line belong to the text that it ends with, or are a text of their own. -/
theorem Lexes.append_pad {mode : Mode} {lineStart : Bool}
    {pieces : List (TokenKind × List Char)} (h : Lexes mode lineStart cs pieces) (hcs : cs ≠ [])
    (hblanks : Blanks pad) (hpad : pad ≠ []) :
    ∃ others, Lexes mode lineStart (cs ++ pad) others ∧ Padded pad pieces others := by
  induction h with
  | done => exact absurd rfl hcs
  | @piece mode lineStart cs kind n pieces found inner rest ih =>
    have hle := Mode.tokenAt_le found
    by_cases hn : n = cs.length
    · -- This piece is the last one.
      subst hn
      rw [List.drop_length] at rest
      obtain ⟨hbase, rfl⟩ := rest.of_nil
      have hfound := Mode.tokenAt_append_pad hblanks found inner fun _ => hbase
      rw [List.take_length]
      rcases Mode.tokenAt_closing found inner hbase with rfl | hclosing
      · rw [if_pos ⟨rfl, rfl⟩, ← List.length_append] at hfound
        have hrest : Lexes (mode.after .text) false ((cs ++ pad).drop (cs ++ pad).length) [] := by
          rw [List.drop_length, hbase]
          exact .done false
        have hlexes := Lexes.piece hfound (by decide) hrest
        rw [List.take_length] at hlexes
        exact ⟨_, hlexes, .text cs⟩
      · have htext : kind ≠ .text := by
          rintro rfl
          exact absurd hclosing (by decide)
        rw [if_neg fun hboth => htext hboth.2] at hfound
        have hrest : Lexes (mode.after kind) false ((cs ++ pad).drop cs.length) [(.text, pad)] := by
          rw [List.drop_left, hbase]
          exact .blanks hblanks hpad
        have hlexes := Lexes.piece hfound inner hrest
        rw [List.take_left] at hlexes
        exact ⟨_, hlexes, .closing hclosing cs⟩
    · have hmore : cs.drop n ≠ [] := by
        rw [ne_eq, List.drop_eq_nil_iff]
        omega
      have hfound := Mode.tokenAt_append_pad hblanks found inner fun heq => absurd heq hn
      rw [if_neg fun hboth => hn hboth.1] at hfound
      obtain ⟨others, hothers, hpadded⟩ := ih hmore
      rw [← List.drop_append_of_le_length hle] at hothers
      have hlexes := Lexes.piece hfound inner hothers
      rw [List.take_append_of_le_length hle] at hlexes
      exact ⟨_, hlexes, .cons _ hpadded⟩

theorem Lexes.unique {mode : Mode} {lineStart : Bool} {pieces others : List (TokenKind × List Char)}
    (h : Lexes mode lineStart cs pieces) (h' : Lexes mode lineStart cs others) :
    pieces = others := by
  induction h generalizing others with
  | done => exact h'.of_nil.2.symm
  | piece found inner rest ih =>
    cases h' with
    | done =>
      exact absurd (Lexes.piece found inner rest).of_nil.2 (by simp)
    | piece found' _ rest' =>
      cases found.symm.trans found'
      rw [ih rest']

end Dialogue
