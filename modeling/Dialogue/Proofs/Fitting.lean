import Dialogue.Proofs.Delimiters
import Dialogue.Proofs.Lossless

/-!
# What tokens look like

The tokens of a body follow the mode they are read in: text holds no line break and
nothing its mode stops at, and a destination is a word (`Token.Fits`). Each token
tells the mode of the next one, so the tokens of a body fit one after another
(`fitting_tokens?`).
-/

namespace Dialogue

namespace Mode

theorem stopsText_take (mode : Mode) (c : Char) (rest : List Char) (n : Nat)
    (h : mode.stopsText (c :: rest) = false) : mode.stopsText (c :: rest.take n) = false := by
  cases n with
  | succ n =>
    rw [← h]
    refine stopsText_cons mode c _ _ ?_
    cases rest <;> rfl
  | zero =>
    have hbreak : atLineBreak (c :: rest) = false := (Bool.or_eq_false_iff.1 h).1
    have hdelim : (mode.delimiter? (c :: rest)).isSome = false := (Bool.or_eq_false_iff.1 h).2
    rw [atLineBreak_cons] at hbreak
    have hc : c ≠ '\n' := by
      rintro rfl
      simp at hbreak
    rw [List.take_zero, stopsText, atLineBreak_cons]
    cases mode with
    | base => simp [hc, delimiter?_base]
    | option =>
      have hbar : c ≠ '|' := by
        rintro rfl
        simp [delimiter?_option] at hdelim
      simp [hc, delimiter?_option, hbar]
    | destination => simp [hc, delimiter?_destination]
    | command => simp [hc, delimiter?_command]

theorem atLineBreak_take (cs : List Char) (n : Nat) (h : atLineBreak cs = false) :
    atLineBreak (cs.take n) = false := by
  cases cs with
  | nil => simp [atLineBreak]
  | cons c rest =>
    cases n with
    | zero => rfl
    | succ n =>
      rw [List.take_succ_cons, atLineBreak_cons]
      rw [atLineBreak_cons] at h
      cases rest with
      | nil => simpa using h
      | cons d rest =>
        cases n with
        | zero =>
          simp only [List.take_zero, List.head?_nil]
          simp only [Bool.or_eq_false_iff] at h
          simp [h.1]
        | succ n => simpa using h

theorem Spans.eq_zero {mode : Mode} {cs : List Char} {n : Nat} (h : mode.Spans cs n)
    (hb : atLineBreak cs = true) : n = 0 := by
  rw [← h.textLength_eq]
  exact textLength_of_stopsText mode cs (by simp [stopsText, hb])

/-- A text stays as it is where what stands behind it is cut off. -/
theorem Spans.take {mode : Mode} {cs : List Char} {n : Nat} (h : mode.Spans cs n) :
    mode.Spans (cs.take n) n ∧ '\n' ∉ cs.take n := by
  induction h with
  | done => exact ⟨.done (.inl rfl), List.not_mem_nil⟩
  | @pair d cs n prose goes line rest ih =>
    have hgoes := stopsText_take mode '\\' (d :: cs) (n + 1) goes
    have hline := atLineBreak_take (d :: cs) (n + 1) line
    refine ⟨.pair prose hgoes hline ih.1, ?_⟩
    simp [Ne.symm (ne_newline_of_atLineBreak line), ih.2]
  | @one c cs n goes single rest ih =>
    refine ⟨.one (stopsText_take mode c cs n goes) (fun hm hc => .inl ?_) ih.1, ?_⟩
    · rcases single hm hc with rfl | hbreak
      · exact List.take_nil
      · rw [rest.eq_zero hbreak, List.take_zero]
    · simp [Ne.symm (ne_newline_of_atLineBreak (atLineBreak_of_goes goes)), ih.2]

theorem take_textLength (mode : Mode) (cs : List Char) :
    mode.textLength (cs.take (mode.textLength cs)) = mode.textLength cs ∧
      '\n' ∉ cs.take (mode.textLength cs) :=
  (spans_textLength mode cs).take.imp_left Spans.textLength_eq

/-- A text that goes on to its end still does where it is cut. -/
theorem Spans.whole_take {mode : Mode} {cs : List Char} {n : Nat} (h : mode.Spans cs n)
    (hn : n = cs.length) (m : Nat) : mode.Spans (cs.take m) (cs.take m).length := by
  induction h generalizing m with
  | done =>
    rw [List.length_eq_zero_iff.1 hn.symm, List.take_nil]
    exact .done (.inl rfl)
  | @pair d cs n prose goes line rest ih =>
    match m with
    | 0 => exact .done (.inl rfl)
    | 1 => exact .one (stopsText_take mode _ _ 0 goes) (fun _ _ => .inl rfl) (.done (.inl rfl))
    | m + 2 =>
      have hgoes := stopsText_take mode '\\' (d :: cs) (m + 1) goes
      have hline := atLineBreak_take (d :: cs) (m + 1) line
      exact .pair prose hgoes hline (ih (by simpa using hn) m)
  | @one c cs n goes single rest ih =>
    have hn : n = cs.length := by simpa using hn
    match m with
    | 0 => exact .done (.inl rfl)
    | m + 1 =>
      refine .one (stopsText_take mode c cs m goes) (fun hm hc => .inl ?_) (ih hn m)
      rcases single hm hc with rfl | hbreak
      · exact List.take_nil
      · rw [List.length_eq_zero_iff.1 (hn.symm.trans (rest.eq_zero hbreak)), List.take_nil]

theorem textLength_take (mode : Mode) (cs : List Char) (n : Nat)
    (h : mode.textLength cs = cs.length) : mode.textLength (cs.take n) = (cs.take n).length :=
  ((spans_textLength mode cs).whole_take h n).textLength_eq

theorem Spans.unbroken {mode : Mode} {cs : List Char} {n : Nat} (h : mode.Spans cs n)
    (hm : mode ≠ base) (hn : n = cs.length) : mode.Unbroken cs := by
  induction h with
  | done =>
    rw [List.length_eq_zero_iff.1 hn.symm]
    trivial
  | pair prose => exact absurd prose hm
  | one goes _ _ ih => exact ⟨goes, ih (by simpa using hn)⟩

theorem unbroken_of_textLength (mode : Mode) (hm : mode ≠ base) (cs : List Char)
    (h : mode.textLength cs = cs.length) : mode.Unbroken cs :=
  (spans_textLength mode cs).unbroken hm h

theorem hasDouble_of_unbroken {mode : Mode} {c : Char}
    (hd : ∀ rest, (mode.delimiter? (c :: c :: rest)).isSome = true) (cs : List Char)
    (h : mode.Unbroken cs) : Text.hasDouble c cs = false := by
  induction cs with
  | nil => rfl
  | cons a rest ih =>
    cases rest with
    | nil => rfl
    | cons b rest =>
      rw [Text.hasDouble, ih h.2, Bool.or_false, Bool.and_eq_false_iff]
      by_cases ha : a = c
      · subst ha
        refine Or.inr (beq_eq_false_iff_ne.2 ?_)
        rintro rfl
        have hs := h.1
        rw [stopsText, hd rest, Bool.or_true] at hs
        cases hs
      · exact Or.inl (beq_eq_false_iff_ne.2 ha)

theorem not_mem_of_unbroken {mode : Mode} {c : Char}
    (hd : ∀ rest, (mode.delimiter? (c :: rest)).isSome = true) (cs : List Char)
    (h : mode.Unbroken cs) : c ∉ cs := by
  induction cs with
  | nil => simp
  | cons a rest ih =>
    intro hmem
    rcases List.mem_cons.1 hmem with rfl | hmem
    · have hs := h.1
      rw [stopsText, hd rest, Bool.or_true] at hs
      cases hs
    · exact ih h.2 hmem

end Mode

namespace Text

theorem trimEnd_isPrefix (cs : List Char) : trimEnd cs <+: cs := by
  have h := List.dropWhile_suffix isBlank (l := cs.reverse)
  rw [← List.reverse_prefix, List.reverse_reverse] at h
  exact h

theorem trim_isInfix (cs : List Char) : trim cs <:+: cs :=
  (trimEnd_isPrefix (trimStart cs)).isInfix.trans (List.dropWhile_suffix isBlank).isInfix

theorem not_mem_trim {cs : List Char} (c : Char) (h : c ∉ cs) : c ∉ trim cs :=
  fun hm => h ((trim_isInfix cs).subset hm)

theorem hasDouble_trim {c : Char} {cs : List Char} (h : hasDouble c cs = false) :
    hasDouble c (trim cs) = false := by
  obtain ⟨a, b, hab⟩ := trim_isInfix cs
  rw [← hab] at h
  exact (hasDouble_of_append (hasDouble_of_append h).1).2

theorem trimEnd_append_blanks (cs blanks : List Char) (h : ∀ c ∈ blanks, isBlank c = true) :
    trimEnd (cs ++ blanks) = trimEnd cs := by
  rw [trimEnd, List.reverse_append, List.dropWhile_append_of_pos fun c hc => h c (by simpa using hc)]
  rfl

theorem trim_trim (cs : List Char) : trim (trim cs) = trim cs := by
  have hstart : ∀ c ∈ (trim cs).head?, isBlank c = false := by
    intro c hc
    have hmem : c ∈ (trimStart cs).head? := by
      obtain ⟨b, hb⟩ := trimEnd_isPrefix (trimStart cs)
      rw [← hb, List.head?_append]
      change (trim cs).head? = some c at hc
      change ((trim cs).head?.or b.head?) = some c
      rw [hc]
      rfl
    have h := List.head?_dropWhile_not isBlank cs
    rw [trimStart] at hmem
    rw [hmem] at h
    simpa using h
  have hend : ∀ c ∈ (trim cs).getLast?, isBlank c = false := by
    intro c hc
    have h := List.head?_dropWhile_not isBlank (trimStart cs).reverse
    rw [trim, trimEnd, List.getLast?_reverse] at hc
    rw [hc] at h
    simpa using h
  exact (congrArg trimEnd (trimStart_eq_self hstart)).trans (trimEnd_eq_self hend)

theorem phrase_trim {cs : List Char} (hne : trim cs ≠ []) (hn : '\n' ∉ cs) : Phrase (trim cs) :=
  ⟨hne, first_of_trim_eq (trim_trim cs), last_of_trim_eq (trim_trim cs),
    not_mem_trim '\n' hn⟩

end Text

namespace Mode

theorem textLength_trimStart (cs : List Char) (h : base.textLength cs = cs.length) :
    base.textLength (Text.trimStart cs) = (Text.trimStart cs).length := by
  induction cs with
  | nil => rfl
  | cons c rest ih =>
    rw [Text.trimStart, List.dropWhile_cons]
    split
    · rename_i hb
      have hs := stopsText_of_textLength base c rest h
      have hc : c ≠ '\\' := by
        rintro rfl
        revert hb
        decide
      rw [textLength_cons base c rest hs, if_neg fun hshield => hc hshield.2.1] at h
      exact ih (by simpa using h)
    · exact h

theorem textLength_trim (cs : List Char) (h : base.textLength cs = cs.length) :
    base.textLength (Text.trim cs) = (Text.trim cs).length := by
  rw [Text.trim, List.prefix_iff_eq_take.1 (Text.trimEnd_isPrefix (Text.trimStart cs))]
  exact textLength_take base _ _ (textLength_trimStart cs h)

theorem trim_surrounded {word : List Char} (lead trail : List Char)
    (hw : word.all isDestinationChar = true)
    (hl : lead.all Text.isIndent = true) (ht : trail.all Text.isIndent = true) :
    Text.trim (lead ++ (word ++ trail)) = word := by
  have hblank : ∀ cs : List Char, cs.all Text.isIndent = true → ∀ c ∈ cs, Text.isBlank c = true :=
    fun cs hcs c hc => Text.isBlank_of_isIndent c (List.all_eq_true.1 hcs c hc)
  have hword : ∀ c ∈ word, Text.isBlank c = false := fun c hc =>
    isBlank_of_isDestinationChar c (List.all_eq_true.1 hw c hc)
  have hstart : Text.trimStart (lead ++ (word ++ trail)) = Text.trimStart (word ++ trail) :=
    List.dropWhile_append_of_pos (hblank lead hl)
  rw [Text.trim, hstart]
  cases word with
  | nil =>
    have hnil : Text.trimStart (trail ++ []) = Text.trimStart [] :=
      List.dropWhile_append_of_pos (hblank trail ht)
    rw [List.append_nil] at hnil
    rw [List.nil_append, hnil]
    rfl
  | cons c cs =>
    rw [Text.trimStart_eq_self, Text.trimEnd_append_blanks _ _ (hblank trail ht),
      Text.trimEnd_eq_self]
    · intro d hd
      exact hword d (List.mem_of_getLast? hd)
    · intro d hd
      cases hd
      exact hword c List.mem_cons_self

theorem take_length_takeWhile (test : Char → Bool) (cs : List Char) :
    cs.take (cs.takeWhile test).length = cs.takeWhile test :=
  (List.prefix_iff_eq_take.1 (List.takeWhile_prefix test)).symm

theorem isDestination_take (cs : List Char) (h : destinationLength cs ≠ 0) :
    Rules.isDestination (Text.trim (cs.take (destinationLength cs))) = true := by
  unfold destinationLength at h ⊢
  simp only at h ⊢
  split
  · rename_i hz
    rw [if_pos hz] at h
    exact absurd rfl h
  · rename_i hz
    rw [List.take_add, List.take_add, indentLength, indentLength, take_length_takeWhile,
      take_length_takeWhile, take_length_takeWhile, List.append_assoc,
      trim_surrounded _ _ List.all_takeWhile List.all_takeWhile List.all_takeWhile,
      Rules.isDestination, List.all_takeWhile, Bool.and_true, bne_iff_ne]
    intro hnil
    exact hz (by rw [indentLength, hnil]; rfl)

end Mode

/-! ### Tokens -/

structure Token.Fits (mode : Mode) (t : Token) : Prop where
  newline : t.kind = .text → '\n' ∉ t.text
  length : t.kind = .text → mode.textLength t.text = t.text.length
  destination : t.kind = .identifier → Rules.isDestination (Text.trim t.text) = true

/-- Tokens that fit one after another, the first of them in this mode. -/
def Fitting : Mode → List Token → Prop
  | _, [] => True
  | mode, t :: ts => t.Fits mode ∧ Fitting (mode.after t.kind) ts

namespace Token

theorem fits_of_kind (mode : Mode) (t : Token) (ht : t.kind ≠ .text) (hi : t.kind ≠ .identifier) :
    t.Fits mode :=
  ⟨fun h => absurd h ht, fun h => absurd h ht, fun h => absurd h hi⟩

theorem fits_text (mode : Mode) (position : Position) (cs : List Char) :
    Fits mode ⟨.text, cs.take (mode.textLength cs), position⟩ := by
  obtain ⟨hl, hn⟩ := mode.take_textLength cs
  have hle := mode.textLength_le cs
  refine ⟨fun _ => hn, fun _ => ?_, nofun⟩
  rw [hl, List.length_take, Nat.min_eq_left hle]

theorem fits_tokenAt {mode : Mode} {lineStart : Bool} {cs : List Char} {kind : TokenKind} {n : Nat}
    (position : Position) (h : mode.tokenAt lineStart cs = some (kind, n)) :
    Fits mode ⟨kind, cs.take n, position⟩ := by
  cases Mode.finds_of_tokenAt h with
  | arrow | newline => exact fits_of_kind _ _ nofun nofun
  | delimiter found =>
    obtain ⟨-, htext, hidentifier, -⟩ := TokenKind.of_mem_delimiters (Mode.delimiter?_mem found)
    exact fits_of_kind _ _ htext hidentifier
  | text => exact fits_text mode position cs
  | destination _ more => exact ⟨nofun, nofun, fun _ => Mode.isDestination_take cs more⟩

end Token

namespace Cursor

theorem Steps.fits {c d : Cursor} {t : Token} (h : c.Steps t d) (ho : c.OwesLevels) :
    t.Fits c.mode ∧ d.mode = c.mode.after t.kind := by
  cases h with
  | owed markers =>
    rcases ho.head markers with rfl | rfl <;> exact ⟨Token.fits_of_kind _ _ nofun nofun, rfl⟩
  | lead | last | close | invalid => exact ⟨Token.fits_of_kind _ _ nofun nofun, rfl⟩
  | @newline n _ _ found =>
    obtain ⟨levels, owed, hframe⟩ := measure_frame ((c.start.skip n).enter .newline)
    rw [hframe]
    exact ⟨Token.fits_tokenAt c.position found, rfl⟩
  | token _ _ found => exact ⟨Token.fits_tokenAt c.position found, rfl⟩

/-- The tokens of a body fit one after another. -/
theorem fitting_tokens? (c : Cursor) (ho : c.OwesLevels) (ts : List Token)
    (h : c.tokens? = .ok ts) : Fitting c.mode ts := by
  fun_induction Cursor.tokens? c generalizing ts with
  | case1 c more rest hrest ih =>
    cases h
    obtain ⟨hf, hm⟩ := (steps_step c).fits ho
    refine ⟨hf, ?_⟩
    rw [← hm]
    exact ih ho.step rest hrest
  | case2 c more e he ih => cases h
  | case3 => cases h
  | case4 c =>
    cases h
    exact ⟨((steps_step c).fits ho).1, trivial⟩

end Cursor

end Dialogue
