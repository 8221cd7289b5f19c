import Dialogue.Proofs.Shape
import Dialogue.Statement.Prose

/-!
# How far a text goes

A text goes on until its mode stops it: at a line break, or at a bracket or
separator of the mode. Two characters decide that, so a text without such a pair
goes on to its end (`textLength_of_unbroken`), and a piece behind it is reached if
the pair across the border does not stop it either (`textLength_append`). In prose
a backslash shields the next character; written prose is shielded where it would
stop (`textLength_escape`).
-/

namespace Dialogue

namespace Text

theorem hasDouble_tail {c a : Char} {cs : List Char} (h : hasDouble c (a :: cs) = false) :
    hasDouble c cs = false := by
  cases cs with
  | nil => rfl
  | cons b cs =>
    simp only [hasDouble, Bool.or_eq_false_iff] at h
    exact h.2

theorem hasDouble_of_append {c : Char} {a b : List Char} (h : hasDouble c (a ++ b) = false) :
    hasDouble c a = false ∧ hasDouble c b = false := by
  induction a with
  | nil => exact ⟨rfl, h⟩
  | cons x xs ih =>
    obtain ⟨hxs, hb⟩ := ih (hasDouble_tail h)
    refine ⟨?_, hb⟩
    cases xs with
    | nil => rfl
    | cons y ys =>
      simp only [List.cons_append, hasDouble, Bool.or_eq_false_iff] at h ⊢
      exact ⟨h.1, hxs⟩

theorem head?_ne_of_hasDouble {c : Char} {cs : List Char} (h : hasDouble c (c :: cs) = false) :
    cs.head? ≠ some c := by
  cases cs with
  | nil => simp
  | cons d cs =>
    rintro hd
    simp only [List.head?_cons, Option.some.injEq] at hd
    subst hd
    simp [hasDouble] at h

theorem head?_ne_of_suffix {c : Char} {cs rest : List Char} (h : hasDouble c cs = false)
    (hs : c :: rest <:+ cs) : rest.head? ≠ some c := by
  obtain ⟨before, rfl⟩ := hs
  exact head?_ne_of_hasDouble (hasDouble_of_append h).2

end Text

namespace Mode

theorem delimiter?_base (c : Char) (rest : List Char) :
    base.delimiter? (c :: rest) =
      if c = '[' ∧ rest.head? = some '[' then some .optionStart
      else if c = '<' ∧ rest.head? = some '<' then some .commandStart else none := by
  unfold delimiter?
  cases rest with
  | nil => split <;> simp_all
  | cons d rest =>
    split <;> simp_all
    rename_i ho hc
    rw [if_neg fun h => ho h.1 h.2, if_neg fun h => hc h.1 h.2]

theorem delimiter?_option (c : Char) (rest : List Char) :
    option.delimiter? (c :: rest) =
      if c = ']' ∧ rest.head? = some ']' then some .optionEnd
      else if c = '|' then some .optionSep else none := by
  unfold delimiter?
  cases rest <;> split <;> simp_all

theorem delimiter?_destination (c : Char) (rest : List Char) :
    destination.delimiter? (c :: rest) =
      if c = ']' ∧ rest.head? = some ']' then some .optionEnd else none := by
  unfold delimiter?
  cases rest <;> split <;> simp_all

theorem delimiter?_command (c : Char) (rest : List Char) :
    command.delimiter? (c :: rest) =
      if c = '>' ∧ rest.head? = some '>' then some .commandEnd else none := by
  unfold delimiter?
  cases rest <;> split <;> simp_all

theorem atLineBreak_cons (c : Char) (rest : List Char) :
    atLineBreak (c :: rest) = (c == '\n' || (c == '\r' && rest.head? == some '\n')) := by
  unfold atLineBreak
  cases rest <;> split <;> simp_all

/-- A delimiter shows in its first character and in whether a bracket follows. -/
theorem delimiter?_congr (mode : Mode) (c : Char) {rest rest' : List Char}
    (h : ∀ d ∈ ['[', ']', '<', '>'], rest.head? = some d ↔ rest'.head? = some d) :
    mode.delimiter? (c :: rest) = mode.delimiter? (c :: rest') := by
  cases mode with
  | base => simp only [delimiter?_base, h '[' (by decide), h '<' (by decide)]
  | option => simp only [delimiter?_option, h ']' (by decide)]
  | destination => simp only [delimiter?_destination, h ']' (by decide)]
  | command => simp only [delimiter?_command, h '>' (by decide)]

theorem stopsText_cons (mode : Mode) (c : Char) (rest rest' : List Char)
    (h : rest.head? = rest'.head?) : mode.stopsText (c :: rest) = mode.stopsText (c :: rest') := by
  have hdelimiter : mode.delimiter? (c :: rest) = mode.delimiter? (c :: rest') :=
    delimiter?_congr mode c fun d _ => by rw [h]
  rw [stopsText, stopsText, atLineBreak_cons, atLineBreak_cons, h, hdelimiter]

theorem textLength_of_stopsText (mode : Mode) (cs : List Char) (h : mode.stopsText cs = true) :
    mode.textLength cs = 0 := by
  unfold textLength
  split
  · rfl
  · rw [if_pos h]
  · rw [if_pos h]

theorem textLength_cons (mode : Mode) (c : Char) (rest : List Char)
    (h : mode.stopsText (c :: rest) = false) :
    mode.textLength (c :: rest) =
      if mode = base ∧ c = '\\' ∧ rest ≠ [] ∧ atLineBreak rest = false then
        mode.textLength rest.tail + 2
      else mode.textLength rest + 1 := by
  cases rest with
  | nil => simp [textLength, h]
  | cons d rest => simp [textLength, h]

theorem stopsText_of_textLength (mode : Mode) (c : Char) (cs : List Char)
    (h : mode.textLength (c :: cs) = (c :: cs).length) : mode.stopsText (c :: cs) = false := by
  cases hs : mode.stopsText (c :: cs) with
  | false => rfl
  | true =>
    rw [textLength_of_stopsText mode _ hs] at h
    cases h

theorem atLineBreak_append (mode : Mode) (d : Char) (ds tail : List Char)
    (hl : ∀ c, (d :: ds).getLast? = some c → mode.stopsText (c :: tail) = false) :
    atLineBreak (d :: ds ++ tail) = atLineBreak (d :: ds) := by
  cases ds with
  | nil =>
    have hstop := hl d rfl
    simp only [stopsText, Bool.or_eq_false_iff] at hstop
    rw [List.singleton_append, hstop.1]
    rw [atLineBreak_cons] at hstop ⊢
    simp only [Bool.or_eq_false_iff] at hstop
    simp [hstop.1.1]
  | cons e ds =>
    rw [List.cons_append, atLineBreak_cons, atLineBreak_cons]
    rfl

theorem atLineBreak_of_goes {mode : Mode} {c : Char} {cs : List Char}
    (h : mode.stopsText (c :: cs) = false) : atLineBreak (c :: cs) = false :=
  (Bool.or_eq_false_iff.1 h).1

theorem ne_newline_of_atLineBreak {c : Char} {cs : List Char} (h : atLineBreak (c :: cs) = false) :
    c ≠ '\n' := by
  rintro rfl
  cases h

/-! ### How far a text goes -/

/-- Text goes on over the first `n` characters and stops behind them. In prose a backslash takes
the next character of its line along. -/
inductive Spans (mode : Mode) : List Char → Nat → Prop
  | done {cs : List Char} (stops : cs = [] ∨ mode.stopsText cs = true) : Spans mode cs 0
  | pair {d : Char} {cs : List Char} {n : Nat} (prose : mode = base)
      (goes : mode.stopsText ('\\' :: d :: cs) = false) (line : atLineBreak (d :: cs) = false)
      (rest : Spans mode cs n) : Spans mode ('\\' :: d :: cs) (n + 2)
  | one {c : Char} {cs : List Char} {n : Nat} (goes : mode.stopsText (c :: cs) = false)
      (single : mode = base → c = '\\' → cs = [] ∨ atLineBreak cs = true)
      (rest : Spans mode cs n) : Spans mode (c :: cs) (n + 1)

section

variable {mode : Mode} {cs tail : List Char} {n : Nat}

theorem spans_textLength (mode : Mode) (cs : List Char) : mode.Spans cs (mode.textLength cs) := by
  fun_induction textLength mode cs with
  | case1 => exact .done (.inl rfl)
  | case2 c hstop | case4 c d cs hstop => exact .done (.inr hstop)
  | case3 c hstop =>
    exact .one (Bool.eq_false_iff.2 hstop) (fun _ _ => .inl rfl) (.done (.inl rfl))
  | case5 c d cs hstop hshield ih =>
    obtain ⟨hm, rfl, hline⟩ := hshield
    exact .pair hm (Bool.eq_false_iff.2 hstop) (Bool.eq_false_iff.2 hline) ih
  | case6 c d cs hstop hshield ih =>
    refine .one (Bool.eq_false_iff.2 hstop) (fun hm hc => .inr ?_) ih
    simpa [hm, hc] using hshield

theorem Spans.textLength_eq (h : mode.Spans cs n) : mode.textLength cs = n := by
  induction h with
  | done stops =>
    rcases stops with rfl | stops
    · rfl
    · exact textLength_of_stopsText mode _ stops
  | pair prose goes line rest ih =>
    rw [textLength_cons mode _ _ goes, if_pos ⟨prose, rfl, List.cons_ne_nil _ _, line⟩]
    exact congrArg (· + 2) ih
  | one goes single rest ih =>
    rw [textLength_cons mode _ _ goes, if_neg, ih]
    rintro ⟨hm, hc, hne, hline⟩
    rcases single hm hc with rfl | hbreak
    · exact hne rfl
    · rw [hline] at hbreak
      cases hbreak

theorem Spans.le (h : mode.Spans cs n) : n ≤ cs.length := by
  induction h with
  | done => exact Nat.zero_le _
  | pair _ _ _ _ ih => exact Nat.add_le_add_right ih 2
  | one _ _ _ ih => exact Nat.add_le_add_right ih 1

/-- The last character of a text that goes on to its end ends no text by itself. -/
theorem Spans.last (h : mode.Spans cs n) (hn : n = cs.length) :
    ∀ c, cs.getLast? = some c → mode.stopsText [c] = false := by
  induction h with
  | done =>
    rw [List.length_eq_zero_iff.1 hn.symm]
    nofun
  | @pair d cs n prose goes line rest ih =>
    intro c hc
    cases cs with
    | nil =>
      obtain rfl : d = c := by simpa using hc
      rw [prose, stopsText, line, delimiter?_base, if_neg (by simp), if_neg (by simp)]
      rfl
    | cons e cs => exact ih (by simpa using hn) c (by simpa using hc)
  | @one d cs n goes single rest ih =>
    intro c hc
    cases cs with
    | nil =>
      cases hc
      exact goes
    | cons e cs => exact ih (by simpa using hn) c (by simpa using hc)

/-- A last character goes on into what stands behind it, whose first character a backslash takes
along. -/
theorem spans_cons {c : Char} (goes : mode.stopsText (c :: tail) = false)
    (hb : mode = base → c = '\\' → tail = [] ∨ atLineBreak tail = true ∨
      mode.textLength tail = mode.textLength tail.tail + 1) :
    mode.Spans (c :: tail) (mode.textLength tail + 1) := by
  by_cases hshield : mode = base ∧ c = '\\' ∧ tail ≠ [] ∧ atLineBreak tail = false
  · obtain ⟨hm, rfl, hne, hline⟩ := hshield
    obtain ⟨d, rest, rfl⟩ := List.exists_cons_of_ne_nil hne
    rcases hb hm rfl with hb | hb | hb
    · exact absurd hb hne
    · rw [hline] at hb
      cases hb
    · rw [hb]
      exact .pair hm goes hline (spans_textLength mode rest)
  · refine .one goes (fun hm hc => ?_) (spans_textLength mode tail)
    by_contra hnone
    rw [not_or, Bool.not_eq_true] at hnone
    exact hshield ⟨hm, hc, hnone⟩

theorem Spans.append_whole (h : mode.Spans cs n) (hn : n = cs.length)
    (hl : ∀ c, cs.getLast? = some c → mode.stopsText (c :: tail) = false)
    (hb : mode = base → cs.getLast? = some '\\' → tail = [] ∨ atLineBreak tail = true ∨
      mode.textLength tail = mode.textLength tail.tail + 1) :
    mode.Spans (cs ++ tail) (n + mode.textLength tail) := by
  induction h with
  | done =>
    rw [List.length_eq_zero_iff.1 hn.symm, Nat.zero_add]
    exact spans_textLength mode tail
  | @pair d cs n prose goes line rest ih =>
    have hlast : ∀ {c}, cs.getLast? = some c → ('\\' :: d :: cs).getLast? = some c := by
      intro c hc
      simp [List.getLast?_cons, hc]
    have hline := atLineBreak_append mode d cs tail fun c hc => hl c (by simpa using hc)
    have hrest := ih (by simpa using hn) (fun c hc => hl c (hlast hc))
      fun hm hc => hb hm (hlast hc)
    rw [Nat.add_right_comm]
    have hgoes := (stopsText_cons mode '\\' (d :: cs ++ tail) (d :: cs) rfl).trans goes
    exact .pair prose hgoes (hline.trans line) hrest
  | @one c cs n goes single rest ih =>
    have hn : n = cs.length := by simpa using hn
    cases cs with
    | nil =>
      subst hn
      rw [List.length_nil, Nat.zero_add, Nat.add_comm]
      exact spans_cons (hl c rfl) fun hm hc => hb hm (by rw [hc]; rfl)
    | cons d ds =>
      have hline := atLineBreak_append mode d ds tail fun c hc => hl c (by simpa using hc)
      have hrest := ih hn (fun c hc => hl c (by simpa using hc))
        fun hm hc => hb hm (by simpa using hc)
      rw [Nat.add_right_comm]
      have hgoes := (stopsText_cons mode c (d :: ds ++ tail) (d :: ds) rfl).trans goes
      refine .one hgoes (fun hm hc => .inr ?_) hrest
      exact hline.trans ((single hm hc).resolve_left (List.cons_ne_nil d ds))

theorem Spans.append_of_lt (h : mode.Spans cs n) (hlt : n < cs.length)
    (hs : ∀ c ds, c :: ds <:+ cs → mode.stopsText (c :: ds ++ tail) = mode.stopsText (c :: ds))
    (hn : ∀ d ds, d :: ds <:+ cs → atLineBreak (d :: ds ++ tail) = atLineBreak (d :: ds)) :
    mode.Spans (cs ++ tail) n := by
  induction h with
  | @done cs stops =>
    obtain ⟨c, cs, rfl⟩ := List.exists_cons_of_length_pos hlt
    have hstop := stops.resolve_left (List.cons_ne_nil c cs)
    exact .done (.inr ((hs c cs List.suffix_rfl).trans hstop))
  | @pair d cs n prose goes line rest ih =>
    have hd : d :: cs <:+ '\\' :: d :: cs := List.suffix_cons _ _
    have hcs : cs <:+ '\\' :: d :: cs := (List.suffix_cons d cs).trans hd
    have hrest := ih (by simpa using hlt) (fun c ds h => hs c ds (h.trans hcs))
      fun d ds h => hn d ds (h.trans hcs)
    exact .pair prose ((hs _ _ List.suffix_rfl).trans goes) ((hn d cs hd).trans line) hrest
  | @one c cs n goes single rest ih =>
    have hcs : cs <:+ c :: cs := List.suffix_cons _ _
    have hlt : n < cs.length := by simpa using hlt
    have hrest := ih hlt (fun c ds h => hs c ds (h.trans hcs)) fun d ds h => hn d ds (h.trans hcs)
    obtain ⟨d, ds, rfl⟩ := List.exists_cons_of_length_pos (Nat.zero_lt_of_lt hlt)
    refine .one ((hs _ _ List.suffix_rfl).trans goes) (fun hm hc => .inr ?_) hrest
    exact (hn d ds hcs).trans ((single hm hc).resolve_left (List.cons_ne_nil d ds))

end

theorem textLength_le (mode : Mode) (cs : List Char) : mode.textLength cs ≤ cs.length :=
  (spans_textLength mode cs).le

/-- A text that goes on to its end goes on into `tail`, if its last character does. In prose a
backslash at its end may take the first character of the tail along. -/
theorem textLength_append (mode : Mode) (cs tail : List Char)
    (h : mode.textLength cs = cs.length)
    (hl : ∀ c, cs.getLast? = some c → mode.stopsText (c :: tail) = false)
    (hb : mode = base → cs.getLast? = some '\\' → tail = [] ∨ atLineBreak tail = true ∨
      mode.textLength tail = mode.textLength tail.tail + 1) :
    mode.textLength (cs ++ tail) = cs.length + mode.textLength tail := by
  rw [← h]
  exact ((spans_textLength mode cs).append_whole h hl hb).textLength_eq

/-- Where nothing that ends a text changes by what stands behind it, a text that goes on to its end
goes on into `tail`, and any other text is as long as before. -/
theorem textLength_append_of_agree (mode : Mode) (cs tail : List Char)
    (hs : ∀ c ds, c :: ds <:+ cs → mode.stopsText (c :: ds ++ tail) = mode.stopsText (c :: ds))
    (hn : ∀ d ds, d :: ds <:+ cs → atLineBreak (d :: ds ++ tail) = atLineBreak (d :: ds))
    (hb : tail = [] ∨ atLineBreak tail = true ∨
      mode.textLength tail = mode.textLength tail.tail + 1) :
    mode.textLength (cs ++ tail) =
      if mode.textLength cs = cs.length then cs.length + mode.textLength tail
      else mode.textLength cs := by
  have hspans := spans_textLength mode cs
  split
  · rename_i hwhole
    refine textLength_append mode cs tail hwhole (fun c hc => ?_) fun _ _ => hb
    obtain ⟨before, rfl⟩ := List.getLast?_eq_some_iff.1 hc
    exact (hs c [] (List.suffix_append _ _)).trans (hspans.last hwhole c hc)
  · rename_i hpart
    exact (hspans.append_of_lt (Nat.lt_of_le_of_ne hspans.le hpart) hs hn).textLength_eq

/-! ### Texts that do not stop -/

/-- Text stops nowhere in `cs`. -/
def Unbroken (mode : Mode) : List Char → Prop
  | [] => True
  | c :: cs => mode.stopsText (c :: cs) = false ∧ Unbroken mode cs

theorem Spans.eq_length {mode : Mode} {cs : List Char} {n : Nat} (h : mode.Spans cs n)
    (hu : mode.Unbroken cs) : n = cs.length := by
  induction h with
  | @done cs stops =>
    cases cs with
    | nil => rfl
    | cons c cs =>
      have hstop := stops.resolve_left (List.cons_ne_nil c cs)
      rw [hu.1] at hstop
      cases hstop
  | pair _ _ _ _ ih => exact congrArg (· + 2) (ih hu.2.2)
  | one _ _ _ ih => exact congrArg (· + 1) (ih hu.2)

theorem textLength_of_unbroken (mode : Mode) (cs : List Char) (h : mode.Unbroken cs) :
    mode.textLength cs = cs.length :=
  (spans_textLength mode cs).eq_length h

theorem atLineBreak_of_not_mem {c : Char} {cs : List Char} (h : '\n' ∉ c :: cs) :
    atLineBreak (c :: cs) = false := by
  have hc : c ≠ '\n' := fun hc => h (by rw [hc]; exact List.mem_cons_self)
  have hcs : cs.head? ≠ some '\n' := by
    intro hd
    exact h (List.mem_cons_of_mem _ (List.mem_of_mem_head? hd))
  simp [atLineBreak_cons, hc, hcs]

theorem unbroken_of_delimiter? {mode : Mode} {cs : List Char} (hn : '\n' ∉ cs)
    (h : ∀ c rest, c :: rest <:+ cs → mode.delimiter? (c :: rest) = none) : mode.Unbroken cs := by
  induction cs with
  | nil => trivial
  | cons c cs ih =>
    have htail := ih (fun hm => hn (List.mem_cons_of_mem c hm)) fun d rest hs =>
      h d rest (hs.trans (List.suffix_cons c cs))
    refine ⟨?_, htail⟩
    rw [stopsText, atLineBreak_of_not_mem hn, h c cs List.suffix_rfl]
    rfl

theorem unbroken_command (cs : List Char) (hn : '\n' ∉ cs) (hd : Text.hasDouble '>' cs = false) :
    command.Unbroken cs := by
  refine unbroken_of_delimiter? hn fun c rest hs => ?_
  rw [delimiter?_command, if_neg]
  rintro ⟨rfl, h⟩
  exact Text.head?_ne_of_suffix hd hs h

theorem unbroken_option (cs : List Char) (hn : '\n' ∉ cs) (hs : '|' ∉ cs)
    (hd : Text.hasDouble ']' cs = false) : option.Unbroken cs := by
  refine unbroken_of_delimiter? hn fun c rest hsuffix => ?_
  rw [delimiter?_option, if_neg, if_neg]
  · rintro rfl
    exact hs (hsuffix.subset List.mem_cons_self)
  · rintro ⟨rfl, h⟩
    exact Text.head?_ne_of_suffix hd hsuffix h

theorem unbroken_base (cs : List Char) (hn : '\n' ∉ cs) (ho : Text.hasDouble '[' cs = false)
    (hc : Text.hasDouble '<' cs = false) : base.Unbroken cs := by
  refine unbroken_of_delimiter? hn fun c rest hs => ?_
  rw [delimiter?_base, if_neg, if_neg]
  · rintro ⟨rfl, h⟩
    exact Text.head?_ne_of_suffix hc hs h
  · rintro ⟨rfl, h⟩
    exact Text.head?_ne_of_suffix ho hs h

/-- What may stand behind the arrow of a shortcut option: prose in which every bracket is
shielded. -/
structure LabelText (cs : List Char) : Prop where
  newline : '\n' ∉ cs
  last : cs.getLast? ≠ some '\r'
  length : base.textLength cs = cs.length

theorem LabelText.last_goes_on {cs : List Char} (h : LabelText cs) (c : Char) (tail : List Char)
    (hl : cs.getLast? = some c) (hb : tail.head? ≠ some '[') (hc : tail.head? ≠ some '<') :
    base.stopsText (c :: tail) = false := by
  have hn : c ≠ '\n' := by
    rintro rfl
    exact h.newline (List.mem_of_getLast? hl)
  have hr : c ≠ '\r' := by
    rintro rfl
    exact h.last hl
  simp [stopsText, atLineBreak_cons, delimiter?_base, hn, hr, hb, hc]

theorem stopsText_blank (mode : Mode) {c : Char} (hc : Text.isIndent c = true) (cs : List Char) :
    mode.stopsText (c :: cs) = false := by
  have hne : ∀ d, Text.isIndent d = false → c ≠ d := by
    rintro d hd rfl
    rw [hc] at hd
    cases hd
  have hbreak : atLineBreak (c :: cs) = false := by
    simp [atLineBreak_cons, hne '\n' (by decide), hne '\r' (by decide)]
  have hnone : mode.delimiter? (c :: cs) = none := by
    cases mode with
    | base => simp [delimiter?_base, hne '[' (by decide), hne '<' (by decide)]
    | option => simp [delimiter?_option, hne ']' (by decide), hne '|' (by decide)]
    | destination => simp [delimiter?_destination, hne ']' (by decide)]
    | command => simp [delimiter?_command, hne '>' (by decide)]
  simp [stopsText, hbreak, hnone]

theorem textLength_blank (mode : Mode) {c : Char} (hc : Text.isIndent c = true) (rest : List Char) :
    mode.textLength (c :: rest) = mode.textLength rest + 1 := by
  rw [textLength_cons mode c rest (stopsText_blank mode hc rest), if_neg]
  rintro ⟨-, rfl, -⟩
  cases hc

theorem textLength_label (label following : List Char) (h : LabelText label) :
    base.textLength (' ' :: label ++ '\n' :: following) = (' ' :: label).length := by
  rw [List.cons_append, textLength_blank base rfl, textLength_append base label _ h.length
    (fun c hc => h.last_goes_on c _ hc (by simp) (by simp)) (fun _ _ => .inr (.inl rfl)),
    textLength_of_stopsText base ('\n' :: following) rfl]
  rfl

theorem textLength_label_condition (label rest : List Char) (h : LabelText label) :
    base.textLength (' ' :: label ++ [' '] ++ '<' :: '<' :: rest) =
      (' ' :: label ++ [' ']).length := by
  have hstop : base.textLength ('<' :: '<' :: rest) = 0 := textLength_of_stopsText base _ rfl
  have hspace := textLength_blank base (c := ' ') rfl ('<' :: '<' :: rest)
  rw [List.append_assoc, List.cons_append, textLength_blank base rfl, List.singleton_append,
    textLength_append base label _ h.length
      (fun c hc => h.last_goes_on c _ hc (by simp) (by simp)) (fun _ _ => .inr (.inr hspace)),
    hspace, hstop]
  simp

theorem tokenAt_delimiter (mode : Mode) (lineStart : Bool) (cs : List Char) (kind : TokenKind)
    (ha : atArrow cs = false) (h : mode.delimiter? cs = some kind) :
    mode.tokenAt lineStart cs = some (kind, delimiterLength kind) := by
  simp [tokenAt, ha, h]

theorem tokenAt_text (mode : Mode) (lineStart : Bool) (cs tail : List Char)
    (hm : mode ≠ destination) (ha : lineStart = true → atArrow (cs ++ tail) = false)
    (hne : cs ≠ []) (hl : mode.textLength (cs ++ tail) = cs.length) :
    mode.tokenAt lineStart (cs ++ tail) = some (.text, cs.length) := by
  have hpos : cs.length ≠ 0 := by simpa using hne
  have hs : mode.stopsText (cs ++ tail) = false := by
    cases hs : mode.stopsText (cs ++ tail) with
    | false => rfl
    | true =>
      rw [textLength_of_stopsText mode _ hs] at hl
      exact absurd hl.symm hpos
  simp only [stopsText, Bool.or_eq_false_iff, Option.isSome_eq_false_iff,
    Option.isNone_iff_eq_none] at hs
  have harrow : ¬(mode = base ∧ lineStart = true ∧ atArrow (cs ++ tail) = true) := by
    rintro ⟨_, hline, harrow⟩
    rw [ha hline] at harrow
    cases harrow
  unfold tokenAt
  rw [if_neg harrow, hs.2]
  cases mode with
  | base => simp [hs.1, run, hl, hne]
  | option => simp [run, hl, hne]
  | destination => exact absurd rfl hm
  | command => simp [run, hl, hne]

theorem tokenAt_identifier (lineStart : Bool) (cs tail : List Char) (hne : cs ≠ [])
    (hc : cs.all isDestinationChar = true) :
    destination.tokenAt lineStart (cs ++ ']' :: tail) = some (.identifier, cs.length) := by
  obtain ⟨c, cs', rfl⟩ := List.exists_cons_of_ne_nil hne
  have hall : ∀ d ∈ c :: cs', isDestinationChar d = true := List.all_eq_true.1 hc
  have hfirst := hall c List.mem_cons_self
  have hblank : Text.isIndent c = false := by
    cases hi : Text.isIndent c with
    | false => rfl
    | true =>
      simp only [Text.isIndent, Bool.or_eq_true, beq_iff_eq] at hi
      rcases hi with hi | hi <;> (rw [hi] at hfirst; revert hfirst; decide)
  have hbracket : c ≠ ']' := by
    rintro rfl
    revert hfirst
    decide
  have hlead : indentLength (c :: cs' ++ ']' :: tail) = 0 := by
    simp [indentLength, hblank]
  have hword : (c :: cs' ++ ']' :: tail).takeWhile isDestinationChar = c :: cs' := by
    rw [List.takeWhile_append_of_pos hall, List.takeWhile_cons_of_neg (by decide)]
    simp
  have htrail : indentLength (']' :: tail) = 0 := by
    simp [indentLength, Text.isIndent]
  have hlen : destinationLength (c :: cs' ++ ']' :: tail) = (c :: cs').length := by
    unfold destinationLength
    simp only
    rw [hlead, List.drop_zero, hword, if_neg (by simp), Nat.zero_add, List.drop_left, htrail]
    rfl
  have hdel : destination.delimiter? (c :: cs' ++ ']' :: tail) = none := by
    rw [List.cons_append, delimiter?_destination, if_neg]
    rintro ⟨rfl, _⟩
    exact hbracket rfl
  unfold tokenAt
  rw [if_neg (by simp), hdel]
  simp only
  rw [hlen]
  rfl

/-! ### Prose -/

theorem textLength_shield (d : Char) (rest : List Char) (hd : Prose.isEscapable d = true) :
    base.textLength ('\\' :: d :: rest) = base.textLength rest + 2 := by
  have hn : d ≠ '\n' := by
    rintro rfl
    revert hd
    decide
  have hr : d ≠ '\r' := by
    rintro rfl
    revert hd
    decide
  have hs : base.stopsText ('\\' :: d :: rest) = false := by
    simp [stopsText, atLineBreak_cons, delimiter?_base]
  have hline : atLineBreak (d :: rest) = false := by
    simp [atLineBreak_cons, hn, hr]
  rw [textLength_cons base _ _ hs, if_pos ⟨rfl, rfl, List.cons_ne_nil _ _, hline⟩]
  rfl

theorem head?_shielded (cs : List Char) :
    (Prose.shielded cs).head? = cs.head? ∨ (Prose.shielded cs).head? = some '\\' := by
  cases cs with
  | nil => exact Or.inl rfl
  | cons c cs =>
    unfold Prose.shielded
    split
    · exact Or.inr rfl
    · exact Or.inl rfl

theorem head?_shielded_append (cs following : List Char) (hn : '\n' ∉ cs) (hne : cs ≠ []) :
    (Prose.shielded cs ++ '\n' :: following).head? ≠ some '\n' := by
  cases cs with
  | nil => exact absurd rfl hne
  | cons c cs =>
    have hc : c ≠ '\n' := fun h => hn (by rw [h]; exact List.mem_cons_self)
    rw [List.head?_append]
    rcases head?_shielded (c :: cs) with h | h
    · rw [h]
      simpa using hc
    · rw [h]
      simp

theorem stopsText_unshielded (c : Char) (cs following : List Char) (hn : '\n' ∉ c :: cs)
    (hl : (c :: cs).getLast? ≠ some '\r') (hs : Prose.needsShield c cs.head? = false) :
    base.stopsText (c :: (Prose.shielded cs ++ '\n' :: following)) = false := by
  have hc : c ≠ '\n' := fun h => hn (by rw [h]; exact List.mem_cons_self)
  have hcs : '\n' ∉ cs := fun h => hn (List.mem_cons_of_mem _ h)
  have hline : atLineBreak (c :: (Prose.shielded cs ++ '\n' :: following)) = false := by
    cases cs with
    | nil =>
      have hr : c ≠ '\r' := by simpa using hl
      simp [atLineBreak_cons, hc, hr]
    | cons d ds =>
      have hd := head?_shielded_append (d :: ds) following hcs (List.cons_ne_nil _ _)
      rw [atLineBreak_cons, beq_eq_false_iff_ne.2 hc, beq_eq_false_iff_ne.2 hd]
      simp
  have hdouble : ∀ b, b = '[' ∨ b = '<' → c = b →
      (Prose.shielded cs ++ '\n' :: following).head? ≠ some b := by
    rintro b hb rfl hh
    cases cs with
    | nil => rcases hb with rfl | rfl <;> simp [Prose.shielded] at hh
    | cons d ds =>
      have hhead : (Prose.shielded (d :: ds)).head? = some c := by
        rw [List.head?_append] at hh
        rcases head?_shielded (d :: ds) with h | h <;> (rw [h] at hh ⊢; simpa using hh)
      rcases head?_shielded (d :: ds) with h | h
      · rw [h] at hhead
        have hdc : d = c := by simpa using hhead
        rw [hdc] at hs
        rcases hb with rfl | rfl <;> simp [Prose.needsShield] at hs
      · rw [h] at hhead
        rcases hb with rfl | rfl <;> simp at hhead
  rw [stopsText, hline, delimiter?_base, if_neg fun h => hdouble _ (Or.inl rfl) h.1 h.2,
    if_neg fun h => hdouble _ (Or.inr rfl) h.1 h.2]
  rfl

theorem textLength_shielded (cs following : List Char) (hn : '\n' ∉ cs)
    (hl : cs.getLast? ≠ some '\r') :
    base.textLength (Prose.shielded cs ++ '\n' :: following) = (Prose.shielded cs).length := by
  induction hlen : cs.length using Nat.strongRecOn generalizing cs with
  | ind n ih =>
    subst hlen
    cases cs with
    | nil => exact textLength_of_stopsText base _ rfl
    | cons c cs =>
      have hcs : '\n' ∉ cs := fun h => hn (List.mem_cons_of_mem _ h)
      have hshorter : ∀ ds, ds.length < (c :: cs).length → '\n' ∉ ds →
          (ds ≠ [] → ds.getLast? = (c :: cs).getLast?) →
          base.textLength (Prose.shielded ds ++ '\n' :: following) =
            (Prose.shielded ds).length := by
        intro ds hlt hds hlast
        refine ih ds.length hlt ds hds ?_ rfl
        cases ds with
        | nil => simp
        | cons d ds =>
          rw [hlast (List.cons_ne_nil _ _)]
          exact hl
      have hnext := hshorter cs (by simp) hcs fun h => by
        obtain ⟨d, ds, rfl⟩ := List.exists_cons_of_ne_nil h
        simp
      rw [Prose.shielded]
      by_cases hs : Prose.needsShield c cs.head? = true
      · have he := Prose.isEscapable_of_needsShield c _ hs
        rw [if_pos hs, List.cons_append, List.cons_append, textLength_shield c _ he, hnext]
        rfl
      · have hstop := stopsText_unshielded c cs following hn hl (by simpa using hs)
        rw [if_neg hs, List.cons_append, textLength_cons base c _ hstop]
        split
        · -- A backslash that needs no shield takes the next character along.
          rename_i hpair
          obtain ⟨_, rfl, _, hline⟩ := hpair
          cases cs with
          | nil => cases hline
          | cons d ds =>
            have hd : Prose.isEscapable d = false := by
              simpa [Prose.needsShield] using hs
            have hds : Prose.shielded (d :: ds) = d :: Prose.shielded ds := by
              rw [Prose.shielded, if_neg]
              intro h
              rw [Prose.isEscapable_of_needsShield d _ h] at hd
              cases hd
            have hrest := hshorter ds (by simp only [List.length_cons]; omega)
              (fun h => hcs (List.mem_cons_of_mem _ h)) fun h => by
              obtain ⟨e, es, rfl⟩ := List.exists_cons_of_ne_nil h
              simp
            rw [hds, List.cons_append, List.tail_cons, hrest]
            rfl
        · rw [hnext]
          rfl

theorem textLength_escape (cs following : List Char) (hn : '\n' ∉ cs)
    (hl : cs.getLast? ≠ some '\r') :
    base.textLength (Prose.escape cs ++ '\n' :: following) = (Prose.escape cs).length := by
  unfold Prose.escape
  split
  · rename_i rest
    have hrest := textLength_shielded ('>' :: rest) following
      (fun h => hn (List.mem_cons_of_mem _ h)) (by simpa using hl)
    have he : Prose.shielded ('-' :: '>' :: rest) = '-' :: Prose.shielded ('>' :: rest) := by
      rw [Prose.shielded, if_neg (by simp [Prose.needsShield])]
    rw [he, List.cons_append, List.cons_append, textLength_shield '-' _ (by decide), hrest]
    rfl
  · exact textLength_shielded cs following hn hl

theorem escape_ne_nil (cs : List Char) (h : cs ≠ []) : Prose.escape cs ≠ [] := by
  obtain ⟨c, cs, rfl⟩ := List.exists_cons_of_ne_nil h
  unfold Prose.escape
  split
  · exact List.cons_ne_nil _ _
  · rw [Prose.shielded]
    split <;> exact List.cons_ne_nil _ _

theorem atArrow_escape (cs following : List Char) :
    atArrow (Prose.escape cs ++ '\n' :: following) = false := by
  have harrow : ∀ rest : List Char, atArrow ('-' :: rest) = true → rest.head? = some '>' := by
    intro rest h
    unfold atArrow at h
    split at h
    · rename_i he
      cases he
      rfl
    · cases h
  unfold Prose.escape
  split
  · rfl
  · rename_i hno
    cases cs with
    | nil => rfl
    | cons c cs =>
      rw [Prose.shielded]
      split
      · rfl
      · by_cases hc : c = '-'
        · subst hc
          cases ha : atArrow ('-' :: Prose.shielded cs ++ '\n' :: following) with
          | false => rfl
          | true =>
            have hh := harrow _ ha
            rw [List.append_eq, List.head?_append] at hh
            cases cs with
            | nil => simp [Prose.shielded] at hh
            | cons d ds =>
              rcases head?_shielded (d :: ds) with h | h
              · rw [h] at hh
                have hd : d = '>' := by simpa using hh
                exact absurd (by rw [hd]) (hno ds)
              · rw [h] at hh
                simp at hh
        · unfold atArrow
          split
          · rename_i he
            exact absurd (List.cons.inj he).1 hc
          · rfl

theorem isBlank_of_isAlphanum (c : Char) (h : c.isAlphanum = true) : Text.isBlank c = false := by
  cases hb : Text.isBlank c with
  | false => rfl
  | true =>
    simp only [Char.isAlphanum, Char.isAlpha, Char.isUpper, Char.isLower, Char.isDigit,
      Bool.or_eq_true, Bool.and_eq_true, decide_eq_true_eq, ge_iff_le,
      UInt32.le_iff_toNat_le] at h
    simp only [Text.isBlank, Bool.or_eq_true, Bool.and_eq_true, decide_eq_true_eq,
      beq_iff_eq] at hb
    have hc : c.toNat = c.val.toNat := rfl
    have h0 : '0'.val.toNat = 48 := rfl
    have h9 : '9'.val.toNat = 57 := rfl
    have hA : 'A'.val.toNat = 65 := rfl
    have hZ : 'Z'.val.toNat = 90 := rfl
    have ha : 'a'.val.toNat = 97 := rfl
    have hz : 'z'.val.toNat = 122 := rfl
    omega

theorem isBlank_of_isDestinationChar (c : Char) (h : isDestinationChar c = true) :
    Text.isBlank c = false := by
  simp only [isDestinationChar, Bool.or_eq_true, beq_iff_eq] at h
  rcases h with ((h | rfl) | rfl) | rfl
  · exact isBlank_of_isAlphanum c h
  · decide
  · decide
  · decide

end Mode

end Dialogue
