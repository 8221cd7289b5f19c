import Dialogue.Proofs.Seams

/-!
# Levels of indentation

Along a walk through a body the levels that are open stay above the first line, so
a line as wide as the first closes all of them. The markers among the tokens close
every level that they open (`Cursor.closes_tokens?`), at the latest where the body
ends.
-/

namespace Dialogue

theorem closedLevels_base {base : Nat} {levels : List Nat} (h : ∀ level ∈ levels, base < level) :
    closedLevels base base levels = levels.length := by
  induction levels with
  | nil => rfl
  | cons top below ih =>
    have hbelow : base ≤ below.headD base := by
      cases below with
      | nil => exact Nat.le_refl base
      | cons next below =>
        have hnext := h next (by simp)
        exact Nat.le_of_lt hnext
    have htop : base < top := h top List.mem_cons_self
    rw [closedLevels, if_pos ⟨htop, hbelow⟩, ih fun level hl => h level (List.mem_cons_of_mem _ hl)]
    rfl

namespace Cursor

variable {c d : Cursor} {t : Token} {depth : Nat}

def Above (c : Cursor) : Prop := ∀ level ∈ c.levels, c.base < level

theorem Above.measure (h : c.Above) : c.measure.Above := by
  unfold Cursor.measure
  simp only
  split
  · exact h
  · split
    · rename_i hdeep
      intro level hl
      rcases List.mem_cons.1 hl with rfl | hl
      · show c.base < c.position.column - 1
        cases hlevels : c.levels with
        | nil =>
          rw [hlevels] at hdeep
          exact hdeep
        | cons top below =>
          have htop : c.base < top := h top (by rw [hlevels]; exact List.mem_cons_self)
          rw [hlevels, List.headD_cons] at hdeep
          omega
      · exact h level hl
    · exact fun level hl => h level (List.mem_of_mem_drop hl)

theorem Steps.above (h : c.Steps t d) (hs : c.started = true) (ha : c.Above) : d.Above := by
  have hstart : c.start.Above := by
    rw [start_of_started hs]
    exact ha
  cases h with
  | owed => exact ha
  | lead _ fresh =>
    rw [fresh] at hs
    cases hs
  | last | invalid | token => exact hstart
  | close _ _ opened =>
    intro level hl
    exact hstart level (opened ▸ List.mem_cons_of_mem _ hl)
  | @newline n => exact Above.measure (c := (c.start.skip n).enter .newline) hstart

/-- What stays so on the way from `c` to `d`, and what the tokens in between change. -/
structure Follows (c : Cursor) (ts : List Token) (d : Cursor) : Prop where
  mode : d.mode = modeAfter c.mode ts
  place : d.position.advance d.rest = c.position.advance c.rest
  base : d.base = c.base
  above : c.Above → d.Above

theorem follows_nil (c : Cursor) : Follows c [] c := ⟨rfl, rfl, rfl, id⟩

theorem Follows.cons {t : Token} {ts : List Token} {f : Cursor} (h : Follows c [t] d)
    (h' : Follows d ts f) : Follows c (t :: ts) f := by
  refine ⟨?_, h'.place.trans h.place, h'.base.trans h.base, fun ha => h'.above (h.above ha)⟩
  rw [h'.mode, h.mode]
  rfl

theorem step_follows (h : Underway c) : Follows c [c.step.1] c.step.2 := by
  have hstep := steps_step c
  refine ⟨(hstep.fits h.owes).2, ?_, (hstep.keeps h.started).2, hstep.above h.started⟩
  rw [hstep.position.2, ← Position.advance_append, hstep.text_append_rest]

theorem Walks.follows {ts : List Token} (hw : Walks c ts d) (h : Underway c) : Follows c ts d := by
  induction hw with
  | nil c => exact follows_nil c
  | @cons c d f t ts first _ _ ih =>
    obtain ⟨rfl, rfl⟩ := Prod.mk.inj first
    exact (step_follows h).cons (ih h.step)

/-! ### Markers -/

def Opens (c : Cursor) (depth : Nat) : Prop :=
  (c.owed = [.indent] ∧ c.levels.length = depth + 1) ∨
    ∃ closing, c.owed = .replicate closing .dedent ∧ depth = c.levels.length + closing

theorem opens_iff (ho : c.owed = []) : c.Opens depth ↔ c.levels.length = depth := by
  constructor
  · rintro (⟨hi, -⟩ | ⟨closing, hd, rfl⟩)
    · rw [ho] at hi
      cases hi
    · rw [ho, eq_comm, List.replicate_eq_nil_iff] at hd
      omega
  · intro hl
    exact Or.inr ⟨0, ho, hl.symm⟩

theorem Opens.measure (h : c.Opens depth) (ho : c.owed = []) : c.measure.Opens depth := by
  have hlevels := (opens_iff ho).1 h
  unfold Cursor.measure
  simp only
  split
  · exact h
  · split
    · refine Or.inl ⟨rfl, ?_⟩
      rw [List.length_cons, hlevels]
    · have hle := closedLevels_le c.base (c.position.column - 1) c.levels
      refine Or.inr ⟨_, rfl, ?_⟩
      simp only [List.length_drop]
      omega

theorem closes_cons_of_kind {t : Token} {ts : List Token} (hi : t.kind ≠ .indent)
    (hd : t.kind ≠ .dedent) (h : Closes depth ts) : Closes depth (t :: ts) := by
  unfold Closes
  split
  · rename_i hk
    exact absurd hk hi
  · rename_i hk
    exact absurd hk hd
  · exact h

theorem Steps.closes {ts : List Token} (h : c.Steps t d) (hd : c.Opens depth)
    (hmore : t.kind.isFinal = false) (hrest : ∀ behind, d.Opens behind → Closes behind ts) :
    Closes depth (t :: ts) := by
  cases h with
  | owed markers =>
    rcases hd with ⟨hi, hlevels⟩ | ⟨closing, hd, rfl⟩
    · rw [markers] at hi
      obtain ⟨rfl, rfl⟩ := List.cons.inj hi
      exact hrest (depth + 1) (Or.inr ⟨0, rfl, hlevels.symm⟩)
    · cases closing with
      | zero =>
        rw [markers] at hd
        cases hd
      | succ closing =>
        rw [markers, List.replicate_succ] at hd
        obtain ⟨rfl, rfl⟩ := List.cons.inj hd
        exact ⟨c.levels.length + closing, rfl, hrest _ (Or.inr ⟨closing, rfl, rfl⟩)⟩
  | lead => exact closes_cons_of_kind nofun nofun (hrest depth hd)
  | last | invalid => cases hmore
  | @close top below settled _ opened =>
    -- The body is over, and its levels are closed one by one.
    have hlevels := (opens_iff settled).1 hd
    rw [opened, List.length_cons] at hlevels
    exact ⟨below.length, hlevels.symm, hrest _ (Or.inr ⟨0, settled, rfl⟩)⟩
  | @newline n settled =>
    have hnext := Opens.measure (c := (c.start.skip n).enter .newline) hd settled
    exact closes_cons_of_kind nofun nofun (hrest depth hnext)
  | token _ _ found =>
    obtain ⟨hindent, hdedent, -⟩ := TokenKind.of_mem_covering (Mode.tokenAt_kind found)
    exact closes_cons_of_kind hindent hdedent (hrest depth hd)

theorem Steps.levels_of_isFinal (h : c.Steps t d) (howes : c.OwesLevels)
    (hlast : ¬t.kind.isFinal = false) (hvalid : t.kind ≠ .invalid) :
    c.owed = [] ∧ c.levels = [] := by
  cases h with
  | owed markers => rcases howes.head markers with rfl | rfl <;> exact absurd rfl hlast
  | lead | close | newline => exact absurd rfl hlast
  | last settled _ closed => exact ⟨settled, closed⟩
  | invalid => exact absurd rfl hvalid
  | token _ _ found =>
    exact absurd (TokenKind.of_mem_covering (Mode.tokenAt_kind found)).2.2 hlast

/-- Every level that tokens open is closed by them, and every level that was open before. -/
theorem closes_tokens? {ts : List Token} (howes : c.OwesLevels) (hd : c.Opens depth)
    (ht : c.tokens? = .ok ts) : Closes depth ts := by
  fun_induction Cursor.tokens? c generalizing depth ts with
  | case1 c more rest hrest ih =>
    cases ht
    exact (steps_step c).closes hd more fun behind hbehind => ih howes.step hbehind hrest
  | case2 c more e he ih => cases ht
  | case3 => cases ht
  | case4 c last hvalid =>
    cases ht
    obtain ⟨ho, hl⟩ := (steps_step c).levels_of_isFinal howes last hvalid
    rw [opens_iff ho, hl] at hd
    refine closes_cons_of_kind (fun hk => ?_) (fun hk => ?_) hd.symm
    · exact last (by rw [hk]; rfl)
    · exact last (by rw [hk]; rfl)

def closing (n : Nat) (p : Position) : List Token := .replicate n ⟨.dedent, [], p⟩

theorem walks_owed {n : Nat} (ho : c.owed = .replicate n .dedent) :
    Walks c (closing n c.position) { c with owed := [] } := by
  induction n generalizing c with
  | zero =>
    obtain ⟨⟩ := c
    obtain rfl := ho
    exact .nil _
  | succ n ih =>
    rw [List.replicate_succ] at ho
    exact .cons (step_of_owed ho) rfl (ih rfl)

theorem tokens?_of_rest_nil (hs : c.started = true) (hr : c.rest = []) (ho : c.owed = []) :
    c.tokens? = .ok (closing c.levels.length c.position ++ [c.marker .endOfInput]) := by
  induction hl : c.levels generalizing c with
  | nil =>
    have hend : c.step = (c.marker .endOfInput, c) := by
      rw [step_of_started hs ho, if_pos hr, stepEnd, hl]
    rw [tokens?, hend]
    rfl
  | cons top below ih =>
    have hend : c.step = (c.marker .dedent, { c with levels := below }) := by
      rw [step_of_started hs ho, if_pos hr, stepEnd, hl]
    have hmore : c.step.1.kind.isFinal = false := by
      rw [hend]
      rfl
    have hnext := ih (c := { c with levels := below }) hs hr ho rfl
    rw [tokens?_of_not_isFinal c hmore, hend]
    simp only
    rw [hnext]
    rfl

theorem closes_closing {n : Nat} {p : Position} {last : Token} (hk : last.kind = .endOfInput)
    (h : Closes depth (closing n p ++ [last])) : depth = n := by
  induction n generalizing depth with
  | zero =>
    simp only [closing, List.replicate_zero, List.nil_append, Closes, hk] at h
    exact h
  | succ n ih =>
    obtain ⟨less, rfl, hless⟩ := h
    rw [ih hless]

/-- A line as wide as the first one, and the end of the body, close all levels. -/
theorem tokens?_measure {ts : List Token} {base : Nat} {levels : List Nat}
    (hs : c.started = true) (ho : c.owed = []) (hl : c.levels = [])
    (hbase : c.rest = [] ∨ (base = c.base ∧ c.base = c.position.column - 1))
    (habove : ∀ level ∈ levels, base < level) (ht : c.tokens? = .ok ts) :
    ({ c with base := base, levels := levels } : Cursor).measure.tokens? =
      .ok (closing levels.length c.position ++ ts) := by
  by_cases hr : c.rest = []
  · have hmeasure : ({ c with base := base, levels := levels } : Cursor).measure =
        { c with base := base, levels := levels } := if_pos hr
    have hend := tokens?_of_rest_nil hs hr ho
    rw [ht, hl] at hend
    rw [Except.ok.inj hend, hmeasure]
    exact tokens?_of_rest_nil (c := { c with base := base, levels := levels }) hs hr ho
  · obtain ⟨rfl, hcolumn⟩ := hbase.resolve_left hr
    have hdeep : ¬levels.headD c.base < c.base := by
      cases levels with
      | nil => exact Nat.lt_irrefl c.base
      | cons top below =>
        have htop := habove top List.mem_cons_self
        rw [List.headD_cons]
        omega
    have hmeasure : ({ c with base := c.base, levels := levels } : Cursor).measure =
        { c with levels := [], owed := .replicate levels.length .dedent } := by
      unfold measure
      simp only
      rw [if_neg hr, ← hcolumn, if_neg hdeep, closedLevels_base habove, List.drop_length]
    have hclosed : ({ c with levels := [], owed := [] } : Cursor) = c := by
      rw [← ho, ← hl]
    rw [hmeasure, (walks_owed rfl).tokens?]
    simp only
    rw [hclosed, ht]
    rfl

end Cursor

end Dialogue
