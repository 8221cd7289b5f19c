import Dialogue.Proofs.Assembling

/-!
# Text in front of a line break

No token reaches over a line break, but the line break with the blank lines around
it. So a body that goes on behind a line break begins with the tokens of the body
that ends there (`Cursor.exists_seam`), up to the blank lines at its end. Only a
carriage return in front of the line break would belong to it.
-/

namespace Dialogue

variable {cs following : List Char}

theorem head?_append_newline {d : Char} (hd : d ≠ '\n') :
    (cs ++ '\n' :: following).head? = some d ↔ cs.head? = some d := by
  cases cs with
  | nil => simp [Ne.symm hd]
  | cons c cs => rfl

theorem getLast?_tail {c : Char} (h : (c :: cs).getLast? ≠ some '\r') :
    cs.getLast? ≠ some '\r' := by
  cases cs with
  | nil => nofun
  | cons d cs =>
    rw [List.getLast?_cons_cons] at h
    exact h

theorem atLineBreak_append_newline {c : Char} (h : (c :: cs).getLast? ≠ some '\r') :
    atLineBreak (c :: cs ++ '\n' :: following) = atLineBreak (c :: cs) := by
  rw [List.cons_append, Mode.atLineBreak_cons, Mode.atLineBreak_cons]
  cases cs with
  | nil =>
    have hc : c ≠ '\r' := by
      rintro rfl
      exact h rfl
    simp [hc]
  | cons d cs => rfl

namespace Mode

theorem delimiter?_append_newline (mode : Mode) (c : Char) :
    mode.delimiter? (c :: cs ++ '\n' :: following) = mode.delimiter? (c :: cs) := by
  have hbrackets : ∀ d ∈ ['[', ']', '<', '>'], d ≠ '\n' := by simp
  exact delimiter?_congr mode c fun d hd => head?_append_newline (hbrackets d hd)

theorem stopsText_append_newline (mode : Mode) {c : Char} (h : (c :: cs).getLast? ≠ some '\r') :
    mode.stopsText (c :: cs ++ '\n' :: following) = mode.stopsText (c :: cs) := by
  unfold stopsText
  rw [atLineBreak_append_newline h, delimiter?_append_newline]

theorem textLength_newline (mode : Mode) : mode.textLength ('\n' :: following) = 0 :=
  textLength_of_stopsText mode _ (by simp [stopsText, atLineBreak])

theorem textLength_append_newline (mode : Mode) (h : cs.getLast? ≠ some '\r') :
    mode.textLength (cs ++ '\n' :: following) = mode.textLength cs := by
  have hlast : ∀ c ds, c :: ds <:+ cs → (c :: ds).getLast? ≠ some '\r' := by
    rintro c ds ⟨before, rfl⟩
    rwa [List.getLast?_append_of_ne_nil _ (List.cons_ne_nil c ds)] at h
  have hstops : ∀ c ds, c :: ds <:+ cs →
      mode.stopsText (c :: ds ++ '\n' :: following) = mode.stopsText (c :: ds) :=
    fun c ds hd => stopsText_append_newline mode (hlast c ds hd)
  have hbreaks : ∀ d ds, d :: ds <:+ cs →
      atLineBreak (d :: ds ++ '\n' :: following) = atLineBreak (d :: ds) :=
    fun d ds hd => atLineBreak_append_newline (hlast d ds hd)
  rw [textLength_append_of_agree mode cs _ hstops hbreaks (.inr (.inl rfl)), textLength_newline,
    Nat.add_zero]
  split
  · rename_i hwhole
    exact hwhole.symm
  · rfl

end Mode

theorem takeWhile_append_newline {test : Char → Bool} (h : test '\n' = false) :
    (cs ++ '\n' :: following).takeWhile test = cs.takeWhile test :=
  Expr.takeWhile_append_of_stops cs fun _ hc => by
    cases hc
    exact h

theorem drop_append_newline {n : Nat} (h : n ≤ cs.length) :
    (cs ++ '\n' :: following).drop n = cs.drop n ++ '\n' :: following :=
  List.drop_append_of_le_length h

theorem indentLength_append_newline :
    indentLength (cs ++ '\n' :: following) = indentLength cs := by
  unfold indentLength
  rw [takeWhile_append_newline (by decide)]

theorem indentLength_le (cs : List Char) : indentLength cs ≤ cs.length :=
  (List.takeWhile_sublist _).length_le

theorem word_le (cs : List Char) :
    indentLength cs + ((cs.drop (indentLength cs)).takeWhile Mode.isDestinationChar).length ≤
      cs.length := by
  have hlead := indentLength_le cs
  have hword : ((cs.drop (indentLength cs)).takeWhile Mode.isDestinationChar).length ≤
      (cs.drop (indentLength cs)).length := (List.takeWhile_sublist _).length_le
  rw [List.length_drop] at hword
  omega

namespace Mode

theorem destinationLength_append_newline :
    destinationLength (cs ++ '\n' :: following) = destinationLength cs := by
  unfold destinationLength
  simp only
  rw [indentLength_append_newline, drop_append_newline (indentLength_le cs),
    takeWhile_append_newline (by decide), drop_append_newline (word_le cs),
    indentLength_append_newline]

theorem destinationLength_le (cs : List Char) : destinationLength cs ≤ cs.length := by
  unfold destinationLength
  simp only
  split
  · omega
  · have hword := word_le cs
    have htrail := indentLength_le (cs.drop
      (indentLength cs + ((cs.drop (indentLength cs)).takeWhile isDestinationChar).length))
    rw [List.length_drop] at htrail
    omega

end Mode

theorem blankLength_append_newline (h : cs.getLast? ≠ some '\r') :
    blankLength (cs ++ '\n' :: following) =
      if blankLength cs = cs.length then cs.length + 1 + blankLength following
      else blankLength cs := by
  fun_induction blankLength cs with
  | case1 cs ih =>
    rw [List.cons_append, blankLength, ih (getLast?_tail h), List.length_cons]
    split <;> split <;> omega
  | case2 cs ih =>
    rw [List.cons_append, List.cons_append, blankLength, ih (getLast?_tail (getLast?_tail h)),
      List.length_cons, List.length_cons]
    split <;> split <;> omega
  | case3 c cs hn hr hindent ih =>
    have hcr : c ≠ '\r' := by
      rintro rfl
      exact absurd hindent (by decide)
    rw [List.cons_append, blankLength.eq_3 _ _ hn fun _ hc => absurd hc hcr, if_pos hindent,
      ih (getLast?_tail h), List.length_cons]
    split <;> split <;> omega
  | case4 c cs hn hr hindent =>
    have hcr : ∀ rest, c = '\r' → cs ++ '\n' :: following = '\n' :: rest → False := by
      rintro rest rfl heq
      cases cs with
      | nil => exact h rfl
      | cons d cs =>
        obtain ⟨rfl, -⟩ := List.cons.inj heq
        exact hr cs rfl rfl
    rw [List.cons_append, blankLength.eq_3 _ _ hn hcr, if_neg hindent, List.length_cons,
      if_neg (by omega)]
  | case5 =>
    rw [List.nil_append, blankLength, List.length_nil, if_pos rfl]
    omega

namespace Mode

theorem atArrow_append_newline (c : Char) :
    atArrow (c :: cs ++ '\n' :: following) = atArrow (c :: cs) := by
  cases cs with
  | nil => by_cases hc : c = '-' <;> simp [atArrow, hc]
  | cons d cs => by_cases hc : c = '-' <;> by_cases hd : d = '>' <;> simp [atArrow, hc, hd]

theorem tokenAt_append_newline (mode : Mode) (lineStart : Bool) (hne : cs ≠ [])
    (h : cs.getLast? ≠ some '\r') (hb : atLineBreak cs = true → blankLength cs ≠ cs.length) :
    mode.tokenAt lineStart (cs ++ '\n' :: following) = mode.tokenAt lineStart cs := by
  obtain ⟨c, cs, rfl⟩ := List.exists_cons_of_ne_nil hne
  unfold tokenAt
  rw [atArrow_append_newline, delimiter?_append_newline]
  cases mode with
  | base =>
    by_cases hbreak : atLineBreak (c :: cs) = true
    · simp only [atLineBreak_append_newline h, blankLength_append_newline h, if_neg (hb hbreak),
        textLength_append_newline base h]
    · simp only [atLineBreak_append_newline h, hbreak, textLength_append_newline base h,
        Bool.false_eq_true, if_false]
  | option => simp only [textLength_append_newline option h]
  | destination => simp only [destinationLength_append_newline]
  | command => simp only [textLength_append_newline command h]

theorem tokenAt_newline {mode : Mode} {lineStart : Bool} {n : Nat}
    (h : mode.tokenAt lineStart cs = some (.newline, n)) :
    atLineBreak cs = true ∧ n = blankLength cs := by
  cases finds_of_tokenAt h with
  | delimiter found => exact absurd rfl (TokenKind.of_mem_delimiters (delimiter?_mem found)).2.2.2
  | newline _ breaks => exact ⟨breaks, rfl⟩

theorem delimiterLength_le {mode : Mode} {kind : TokenKind} (h : mode.delimiter? cs = some kind) :
    delimiterLength kind ≤ cs.length := by
  unfold delimiter? at h
  split at h <;> cases h <;> simp [delimiterLength]

theorem tokenAt_le {mode : Mode} {lineStart : Bool} {kind : TokenKind} {n : Nat}
    (h : mode.tokenAt lineStart cs = some (kind, n)) : n ≤ cs.length := by
  cases finds_of_tokenAt h with
  | arrow _ _ text => simp [text]
  | delimiter found => exact delimiterLength_le found
  | newline => exact blankLength_le cs
  | text => exact textLength_le mode cs
  | destination => exact destinationLength_le cs

end Mode

/-! ### Steps -/

namespace Cursor

def extend (following : List Char) (c : Cursor) : Cursor :=
  { c with rest := c.rest ++ '\n' :: following }

/-- Nothing but blank lines is left, and the end of the line in front of them. -/
structure Seam (c : Cursor) : Prop where
  owed : c.owed = []
  blank : blankLength c.rest = c.rest.length
  breaks : c.rest = [] ∨ atLineBreak c.rest = true

variable {c d : Cursor} {n : Nat}

theorem cut_extend (kind : TokenKind) (h : n ≤ c.rest.length) :
    (c.extend following).cut kind n = c.cut kind n := by
  unfold cut extend
  rw [List.take_append_of_le_length h]

theorem skip_extend (h : n ≤ c.rest.length) :
    (c.extend following).skip n = (c.skip n).extend following := by
  unfold skip extend
  simp only
  rw [List.take_append_of_le_length h, List.drop_append_of_le_length h]

theorem measure_extend (h : c.rest ≠ []) :
    (c.extend following).measure = c.measure.extend following := by
  have happend : (c.extend following).rest ≠ [] := by
    unfold extend
    simp
  unfold measure
  simp only
  rw [if_neg happend, if_neg h]
  unfold extend
  split <;> rfl

theorem stepContent_extend (hne : c.rest ≠ []) (hlast : c.rest.getLast? ≠ some '\r')
    (hb : atLineBreak c.rest = true → blankLength c.rest ≠ c.rest.length)
    (hk : c.stepContent.1.kind ≠ .invalid) :
    (c.extend following).stepContent = (c.stepContent.1, c.stepContent.2.extend following) := by
  have htoken : (c.extend following).mode.tokenAt (c.extend following).lineStart
      (c.extend following).rest = c.mode.tokenAt c.lineStart c.rest :=
    Mode.tokenAt_append_newline c.mode c.lineStart hne hlast hb
  unfold stepContent at hk ⊢
  rw [htoken]
  split
  · rename_i hnone
    rw [hnone] at hk
    exact absurd rfl hk
  · rename_i kind n hsome
    have hn := Mode.tokenAt_le hsome
    simp only
    rw [cut_extend kind hn, skip_extend hn]
    split
    · -- A line break that is not the last leaves something to measure.
      rename_i hkind
      have hbreak := Mode.tokenAt_newline (hkind ▸ hsome)
      have hrest : ((c.skip n).enter kind).rest ≠ [] := by
        intro hnil
        have hle : c.rest.length ≤ n := List.drop_eq_nil_iff.1 hnil
        rw [hbreak.2] at hle hn
        exact hb hbreak.1 (by omega)
      rw [← measure_extend hrest]
      rfl
    · rfl

/-- The cursor has passed the blank lines in front of a body that ends in no carriage return. -/
structure Underway (c : Cursor) : Prop where
  started : c.started = true
  owes : c.OwesLevels
  last : c.rest.getLast? ≠ some '\r'

theorem Underway.step (h : Underway c) : Underway c.step.2 := by
  refine ⟨((steps_step c).keeps h.started).1, h.owes.step, fun hlast => h.last ?_⟩
  rw [← step_text_append_rest c, List.getLast?_append, hlast]
  rfl

theorem stepContent_isFinal (hk : c.stepContent.1.kind ≠ .invalid) :
    c.stepContent.1.kind.isFinal = false := by
  unfold stepContent at hk ⊢
  split
  · rename_i hnone
    rw [hnone] at hk
    exact absurd rfl hk
  · rename_i kind n hsome
    exact (TokenKind.of_mem_covering (Mode.tokenAt_kind hsome)).2.2

/-- In front of a seam the body may go on behind a line break, without a change. -/
theorem step_extend (following : List Char) (h : Underway c) (hs : ¬Seam c)
    (hk : c.step.1.kind ≠ .invalid) :
    c.step.1.kind.isFinal = false ∧
      (c.extend following).step = (c.step.1, c.step.2.extend following) := by
  cases ho : c.owed with
  | cons kind owed =>
    -- A marker is owed: it covers no text.
    have hextend : (c.extend following).owed = kind :: owed := ho
    rw [step_of_owed ho, step_of_owed hextend]
    refine ⟨?_, rfl⟩
    rcases h.owes kind (by rw [ho]; exact List.mem_cons_self) with rfl | rfl <;> rfl
  | nil =>
    have hrest : c.rest ≠ [] := fun hnil => hs ⟨ho, by rw [hnil]; rfl, Or.inl hnil⟩
    have hstep : c.step = c.stepContent := by
      rw [step_of_started h.started ho, if_neg hrest]
    have hextend : (c.extend following).step = (c.extend following).stepContent := by
      rw [step_of_started (c := c.extend following) h.started ho, if_neg (by simp [extend])]
    rw [hstep] at hk ⊢
    refine ⟨stepContent_isFinal hk, hextend.trans (stepContent_extend hrest h.last ?_ hk)⟩
    exact fun hbreak hblank => hs ⟨ho, hblank, Or.inr hbreak⟩

/-- The tokens in front of the blank lines at the end of a body stay the same if it goes on behind a
line break. -/
theorem exists_seam {ts : List Token} (h : Underway c) (ht : c.tokens? = .ok ts) :
    ∃ x d, Walks c x d ∧ Underway d ∧ Seam d ∧
      ∀ following, Walks (c.extend following) x (d.extend following) := by
  fun_induction Cursor.tokens? c generalizing ts with
  | case1 c more rest hrest ih =>
    by_cases hs : Seam c
    · exact ⟨[], c, .nil c, h, hs, fun _ => .nil _⟩
    · obtain ⟨x, d, hwalk, hd, hseam, hextend⟩ := ih h.step hrest
      have hvalid : c.step.1.kind ≠ .invalid := by
        intro hk
        rw [hk] at more
        cases more
      refine ⟨c.step.1 :: x, d, .cons rfl more hwalk, hd, hseam, fun following => ?_⟩
      exact .cons (step_extend following h hs hvalid).2 more (hextend following)
  | case2 c more e he ih => cases ht
  | case3 => cases ht
  | case4 c last hvalid =>
    by_cases hs : Seam c
    · exact ⟨[], c, .nil c, h, hs, fun _ => .nil _⟩
    · exact absurd (step_extend [] h hs hvalid).1 last

end Cursor

end Dialogue
