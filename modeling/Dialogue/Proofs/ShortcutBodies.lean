import Dialogue.Proofs.ContentLines
import Dialogue.Proofs.Depths
import Dialogue.Proofs.Gathering

/-!
# The body of a shortcut option

A line that begins with an arrow declares a shortcut option. Whether the statements
of the next content line belong to it is decided by the level that the line of the
arrow stands in (`Statement.shortcut_bodies_follow_levels`): a wider line begins the
body of the option, and any other line leaves the option without a body. The level
is the width of the line of the arrow, unless that line lies between two levels.
-/

namespace Dialogue

open Statement (blockWithin branchesWithin)

namespace Statement

theorem blockWithin_append (a b : List Statement) :
    blockWithin (a ++ b) = blockWithin a ++ blockWithin b := by
  induction a with
  | nil => rfl
  | cons s ss ih => simp only [List.cons_append, blockWithin, ih, List.append_assoc]

theorem branchesWithin_append (a b : List Branch) :
    branchesWithin (a ++ b) = branchesWithin a ++ branchesWithin b := by
  induction a with
  | nil => rfl
  | cons branch bs ih =>
    cases branch
    simp only [List.cons_append, branchesWithin, ih, List.append_assoc]

mutual

theorem within_infix_of_mem_within : ∀ {s inner : Statement}, inner ∈ s.within →
    inner.within <:+: s.within
  | .text .., _, h | .link .., _, h | .option .., _, h | .assignment .., _, h
  | .command .., _, h => by
    obtain rfl := List.mem_singleton.1 h
    exact List.infix_rfl
  | .shortcut _ _ _ body, inner, h => by
    rcases List.mem_cons.1 h with rfl | h
    · exact List.infix_rfl
    · exact (within_infix_of_mem_blockWithin h).trans (List.suffix_cons _ _).isInfix
  | .conditional _ branches, inner, h => by
    rcases List.mem_cons.1 h with rfl | h
    · exact List.infix_rfl
    · exact (within_infix_of_mem_branchesWithin h).trans (List.suffix_cons _ _).isInfix

theorem within_infix_of_mem_blockWithin : ∀ {ss : List Statement} {inner : Statement},
    inner ∈ blockWithin ss → inner.within <:+: blockWithin ss
  | [], _, h => by cases h
  | s :: ss, inner, h => by
    rcases List.mem_append.1 h with h | h
    · exact (within_infix_of_mem_within h).trans (List.prefix_append _ _).isInfix
    · exact (within_infix_of_mem_blockWithin h).trans (List.suffix_append _ _).isInfix

theorem within_infix_of_mem_branchesWithin : ∀ {bs : List Branch} {inner : Statement},
    inner ∈ branchesWithin bs → inner.within <:+: branchesWithin bs
  | [], _, h => by cases h
  | .mk _ _ body :: bs, inner, h => by
    rcases List.mem_append.1 h with h | h
    · exact (within_infix_of_mem_blockWithin h).trans (List.prefix_append _ _).isInfix
    · exact (within_infix_of_mem_branchesWithin h).trans (List.suffix_append _ _).isInfix

end

/-- The lines of all statements of a block, at every depth. -/
def blockLines (ss : List Statement) : List Nat := (blockWithin ss).map line

def branchesLines (bs : List Branch) : List Nat := (branchesWithin bs).map line

@[simp] theorem blockLines_nil : blockLines [] = [] := rfl

@[simp] theorem blockLines_append (a b : List Statement) :
    blockLines (a ++ b) = blockLines a ++ blockLines b := by
  simp only [blockLines, blockWithin_append, List.map_append]

@[simp] theorem blockLines_singleton (s : Statement) : blockLines [s] = s.within.map line := by
  simp only [blockLines, blockWithin, List.append_nil]

@[simp] theorem lines_shortcut (number : Nat) (label : String) (condition : Option Expr)
    (body : List Statement) :
    (within (.shortcut number label condition body)).map line = number :: blockLines body := rfl

@[simp] theorem lines_conditional (number : Nat) (branches : List Branch) :
    (within (.conditional number branches)).map line = number :: branchesLines branches := rfl

@[simp] theorem branchesLines_nil : branchesLines [] = [] := rfl

@[simp] theorem branchesLines_append (branches : List Branch) (number : Nat)
    (condition : Option Expr) (body : List Statement) :
    branchesLines (branches ++ [.mk number condition body]) =
      branchesLines branches ++ blockLines body := by
  simp [branchesLines, blockLines, branchesWithin_append, branchesWithin]

end Statement

open Statement (blockLines branchesLines)

def Enclosing.lines : Enclosing → List Nat
  | .shortcut line _ _ before => blockLines before ++ [line]
  | .conditional line branches _ _ before => blockLines before ++ line :: branchesLines branches

/-- The statements that have been finished in front of an open construct and inside it. -/
def Enclosing.held : Enclosing → List Statement
  | .shortcut _ _ _ before => blockWithin before
  | .conditional _ branches _ _ before => blockWithin before ++ branchesWithin branches

def aroundLines : List Enclosing → List Nat
  | [] => []
  | x :: around => aroundLines around ++ x.lines

def Item.lines : Item → List Nat
  | .statement s => s.within.map Statement.line
  | .shortcut line _ _ => [line]
  | .ifStart line _ => [line]
  | _ => []

namespace Assembly

def lines (a : Assembly) : List Nat := aroundLines a.around ++ blockLines a.block

def held (a : Assembly) : List Statement := a.around.flatMap Enclosing.held ++ blockWithin a.block

variable {e : BodyEnd} {a b : Assembly} {t : Token} {item : Item} {tokens left : List Token}
  {s : Statement}

theorem gathers_lines : Gathers blockLines Enclosing.lines aroundLines Item.lines where
  block_nil := rfl
  around_nil := rfl
  around_cons _ _ := rfl
  silent := ⟨rfl, rfl, rfl⟩
  push _ _ := by simp [Item.lines]
  shortcut _ _ _ _ := rfl
  close _ _ _ _ _ := by simp [Enclosing.lines]
  ifStart _ _ _ := rfl
  next _ _ _ _ _ _ _ := by simp [Enclosing.lines, Item.lines]
  ends _ _ _ _ _ _ _ := by simp [Enclosing.lines, Item.lines]

/-- An item adds the lines of its statements. -/
theorem lines_add (h : a.add t item = .ok b) : b.lines = a.lines ++ item.lines :=
  gathers_lines.add h

theorem Dedents.held_subset (h : Dedents a b) : a.held ⊆ b.held := by
  cases h with
  | outside | plain => exact List.Subset.refl _
  | shortcut =>
    intro s hs
    simp only [held, List.flatMap_cons, Enclosing.held, List.mem_append, Statement.blockWithin_append,
      blockWithin, Statement.within, List.mem_cons, List.append_nil] at hs ⊢
    tauto

theorem Continues.held_subset {c : Clause} (h : Continues c a b) : a.held ⊆ b.held := by
  cases h with
  | ends | next =>
    intro s hs
    simp only [held, List.flatMap_cons, Enclosing.held, List.mem_append, Statement.blockWithin_append,
      Statement.branchesWithin_append, blockWithin, branchesWithin, Statement.within, List.mem_cons,
      List.append_nil] at hs ⊢
    tauto

theorem held_subset_add (h : a.add t item = .ok b) : a.held ⊆ b.held := by
  cases item with
  | space | indent =>
    cases h
    exact List.Subset.refl _
  | dedent => exact (dedent_eq_ok_iff.1 h).held_subset
  | statement s =>
    cases h
    simp only [held, push, Statement.blockWithin_append, ← List.append_assoc]
    exact List.subset_append_left _ _
  | shortcut | ifStart =>
    cases h
    intro s hs
    simp only [held, nest, List.flatMap_cons, Enclosing.held, List.mem_append, blockWithin,
      branchesWithin, List.not_mem_nil, or_false] at hs ⊢
    tauto
  | clause c => exact (clause_eq_ok_iff.1 h).held_subset

/-- What has been finished is found in the end. -/
theorem Reaches.held_subset (h : Reaches e a tokens b left) : a.held ⊆ b.held := by
  induction h with
  | here => exact List.Subset.refl _
  | next _ added _ ih => exact List.Subset.trans (held_subset_add added) ih

end Assembly

theorem Says.lines {start command : Token} {d : Directive}
    (h : Says start.position.line command d) :
    ∀ n ∈ (d.item start command).lines, n = start.position.line := by
  intro n hn
  cases h with
  | set | ifStart | command => exact List.mem_singleton.1 hn
  | elseIf | otherwise | endIf => cases hn

theorem Taken.lines {t : Token} {item : Item} {used behind : List Token}
    (h : Taken t item used behind) :
    ∀ n ∈ item.lines, t.kind ∈ TokenKind.ofLine ∧ t.position.line = n := by
  intro n hn
  cases h with
  | newline | blank | indent | dedent => cases hn
  | text _ kind | link _ kind =>
    refine ⟨by rw [kind]; decide, ?_⟩
    exact (List.mem_singleton.1 hn).symm
  | option kind =>
    refine ⟨by rw [kind]; decide, ?_⟩
    exact (List.mem_singleton.1 hn).symm
  | @shortcut _ _ _ _ _ opens kind =>
    refine ⟨by rw [kind]; decide, ?_⟩
    cases opens <;> exact (List.mem_singleton.1 hn).symm
  | command _ kind _ _ said => exact ⟨by rw [kind]; decide, (said.lines n hn).symm⟩

theorem Taken.kind_ne_shortcutMarker {t : Token} {item : Item} {used behind : List Token}
    (h : Taken t item used behind) : ∀ u ∈ used, u.kind ≠ .shortcutMarker := by
  intro u hu
  rcases h.kinds_or_break u hu with hk | hk | hk
  · exact (TokenKind.of_mem_inner hk).2.2.2
  · simp [hk]
  · simp [hk]

theorem TokenKind.inner_subset_ofLine : inner ⊆ ofLine := by decide

theorem LineTaken.kind_not_ofLine {opens : Bool} {used behind : List Token}
    (h : LineTaken opens used behind) : ∀ t ∈ (used ++ behind).head?, t.kind ∉ TokenKind.ofLine := by
  intro t ht
  cases h with
  | deeper _ breaks | level breaks =>
    cases ht
    rw [breaks]
    decide
  | last line =>
    cases behind with
    | nil => cases ht
    | cons u behind =>
      cases ht
      simp only [endsLine, Bool.or_eq_true, beq_iff_eq] at line
      rcases line with (hk | hk) | hk <;> rw [hk] <;> decide

/-- A shortcut option takes the rest of its line, and the line break behind it. -/
theorem Taken.of_shortcutMarker {t : Token} {item : Item} {used behind : List Token}
    (h : Taken t item used behind) (hk : t.kind = .shortcutMarker) :
    ∃ label found opens inner breaks, item = shortcutItem t label found opens ∧
      used = inner ++ breaks ∧ (∀ u ∈ inner, u.kind ∈ TokenKind.ofLine) ∧
      LineTaken opens breaks behind := by
  cases h with
  | newline _ kind | blank _ kind | indent _ kind | dedent _ kind | text _ kind | link _ kind
  | command _ kind => cases hk.symm.trans kind
  | option kind => cases hk.symm.trans kind
  | @shortcut label inner breaks _ found opens _ text condition line =>
    refine ⟨label, found, opens, label :: inner, breaks, rfl, rfl, ?_, line⟩
    refine List.forall_mem_cons.2 ⟨by rw [text]; decide, fun u hu => ?_⟩
    exact TokenKind.inner_subset_ofLine (condition.kinds u hu)

theorem append_inj_of_ofLine {inner inner' rest rest' : List Token}
    (h : inner ++ rest = inner' ++ rest') (hinner : ∀ t ∈ inner, t.kind ∈ TokenKind.ofLine)
    (hinner' : ∀ t ∈ inner', t.kind ∈ TokenKind.ofLine)
    (hrest : ∀ t ∈ rest.head?, t.kind ∉ TokenKind.ofLine)
    (hrest' : ∀ t ∈ rest'.head?, t.kind ∉ TokenKind.ofLine) : inner = inner' ∧ rest = rest' := by
  rcases List.append_eq_append_iff.1 h with ⟨between, hfront, hbehind⟩ | ⟨between, hfront, hbehind⟩
  · cases between with
    | nil => exact ⟨by simpa using hfront.symm, by simpa using hbehind⟩
    | cons t between =>
      rw [hbehind] at hrest
      exact absurd (hinner' t (by rw [hfront]; simp)) (hrest t rfl)
  · cases between with
    | nil => exact ⟨by simpa using hfront, by simpa using hbehind.symm⟩
    | cons t between =>
      rw [hbehind] at hrest'
      exact absurd (hinner t (by rw [hfront]; simp)) (hrest' t rfl)

/-- A shortcut option opens where the next line is deeper than its level. -/
theorem LineTaken.opens_iff {opens : Bool} {breaks behind markers rest : List Token}
    {newline : Token} {stack : List Nat} {width : Nat} (h : LineTaken opens breaks behind)
    (heq : breaks ++ behind = newline :: (markers ++ rest)) (hn : newline.kind = .newline)
    (hmarkers : markers.map Token.kind = markersOf stack width)
    (hrest : ∀ t ∈ rest.head?, t.kind ≠ .indent) :
    (opens = true ↔ stack.headD 0 < width) ∧ (opens = true → behind = rest) := by
  unfold markersOf at hmarkers
  split at hmarkers
  · rename_i hdeep
    obtain ⟨marker, rfl, hk⟩ := List.map_eq_singleton_iff.1 hmarkers
    cases h with
    | deeper =>
      cases heq
      exact ⟨iff_of_true rfl hdeep, fun _ => rfl⟩
    | level _ level =>
      cases heq
      exact absurd hk (level marker rfl)
    | last _ other => exact absurd hn (other newline (by rw [← List.nil_append behind, heq]; rfl))
  · rename_i hdeep
    have hfirst : ∀ t ∈ (markers ++ rest).head?, t.kind ≠ .indent := by
      intro t ht hk
      cases markers with
      | nil => exact hrest t ht hk
      | cons marker markers =>
        cases ht
        have hmem : t.kind ∈ List.replicate (stack.length - (leave width stack).length)
            TokenKind.dedent := by
          rw [← hmarkers]
          exact List.mem_cons_self
        cases hk.symm.trans (List.eq_of_mem_replicate hmem)
    cases h with
    | deeper _ _ level =>
      obtain ⟨-, heq⟩ := List.cons.inj heq
      exact absurd level (hfirst _ (by rw [← heq]; rfl))
    | level => exact ⟨iff_of_false nofun hdeep, nofun⟩
    | last => exact ⟨iff_of_false nofun hdeep, nofun⟩

namespace Assembly

variable {e : BodyEnd} {a b : Assembly} {t : Token} {item : Item} {tokens left : List Token}

/-- The statements that are added stand on lines of the tokens that are read. -/
theorem Reaches.lines (h : Reaches e a tokens b left) :
    ∃ used more, tokens = used ++ left ∧ b.lines = a.lines ++ more ∧
      ∀ n ∈ more, ∃ t ∈ used, t.kind ∈ TokenKind.ofLine ∧ t.position.line = n := by
  induction h with
  | here a tokens => exact ⟨[], [], rfl, (List.append_nil _).symm, nofun⟩
  | @next a b c t rest left item n first added _ ih =>
    obtain ⟨taken, behind, rfl, rfl, htaken⟩ := taken_of_readItem first
    obtain ⟨used, more, hused, hlines, hmore⟩ := ih
    rw [List.drop_left] at hused
    subst hused
    refine ⟨t :: (taken ++ used), item.lines ++ more, by simp, ?_, fun n hn => ?_⟩
    · rw [hlines, lines_add added, List.append_assoc]
    · rcases List.mem_append.1 hn with hn | hn
      · exact ⟨t, List.mem_cons_self, htaken.lines n hn⟩
      · obtain ⟨u, hu, hline⟩ := hmore n hn
        exact ⟨u, List.mem_cons_of_mem _ (List.mem_append_right _ hu), hline⟩

/-! ### On the way to an arrow -/

/-- An arrow is taken by no item in front of it, so reading stops there. -/
theorem Reaches.through {front rest : List Token} {m last : Token}
    (h : Reaches e a (front ++ m :: rest) b [last]) (hm : m.kind = .shortcutMarker)
    (hlast : last.kind = .endOfInput) :
    ∃ c, Reaches e a (front ++ m :: rest) c (m :: rest) ∧ Reaches e c (m :: rest) b [last] := by
  generalize htokens : front ++ m :: rest = tokens at h
  generalize hleft : [last] = left at h
  induction h generalizing front with
  | here a tokens =>
    subst hleft
    have hfront : front = [] := by
      cases front with
      | nil => rfl
      | cons x front => simp at htokens
    subst hfront
    cases htokens
    rw [hm] at hlast
    cases hlast
  | @next a b c t rest' left item n first added further ih =>
    cases front with
    | nil =>
      obtain ⟨rfl, rfl⟩ := List.cons.inj htokens
      exact ⟨a, .here _ _, .next first added further⟩
    | cons x front =>
      obtain ⟨rfl, rfl⟩ := List.cons.inj htokens
      obtain ⟨used, behind, hused, rfl, htaken⟩ := taken_of_readItem first
      have hsplit : ∃ between, front = used ++ between ∧ behind = between ++ m :: rest := by
        rcases List.append_eq_append_iff.1 hused with ⟨between, rfl, hbehind⟩ | ⟨between, hfront, hbehind⟩
        · cases between with
          | nil => exact ⟨[], by simp, by simpa using hbehind.symm⟩
          | cons y between =>
            obtain ⟨rfl, -⟩ := List.cons.inj hbehind
            exact absurd hm (htaken.kind_ne_shortcutMarker m (by simp))
        · exact ⟨between, hfront, hbehind⟩
      obtain ⟨between, rfl, rfl⟩ := hsplit
      rw [hused, List.drop_left] at ih further
      obtain ⟨d, hreach, hrest⟩ := ih rfl hleft
      refine ⟨d, .next first added ?_, hrest⟩
      rw [hused, List.drop_left]
      exact hreach

/-! ### Behind an arrow -/

/-- Around what is being read a construct is open, in the given constructs and levels. -/
def Under (x : Enclosing) (around : List Enclosing) (levels : List Opener) (a : Assembly) : Prop :=
  ∃ inside openers, a.around = inside ++ x :: around ∧ a.levels = openers ++ .shortcut :: levels ∧
    openers.count .shortcut = inside.countP isShortcut

section

variable {line : Nat} {label : String} {condition : Option Expr} {before : List Statement}
  {around : List Enclosing} {levels : List Opener}

theorem Under.dedents (h : Under (.shortcut line label condition before) around levels a)
    (hd : Dedents a b) : Under (.shortcut line label condition before) around levels b ∨
      b = ⟨before ++ [.shortcut line label condition a.block], around, levels⟩ := by
  obtain ⟨inside, openers, haround, hlevels, hcount⟩ := h
  cases hd with
  | outside => simp at hlevels
  | plain =>
    cases openers with
    | nil => cases hlevels
    | cons opener openers =>
      obtain ⟨rfl, rfl⟩ := List.cons.inj hlevels
      exact Or.inl ⟨inside, openers, haround, rfl, by simpa using hcount⟩
  | shortcut =>
    cases inside with
    | nil =>
      obtain ⟨hx, rfl⟩ := List.cons.inj haround
      cases hx
      cases openers with
      | nil =>
        obtain ⟨-, rfl⟩ := List.cons.inj hlevels
        exact Or.inr rfl
      | cons opener openers =>
        obtain ⟨rfl, rfl⟩ := List.cons.inj hlevels
        simp at hcount
    | cons enclosing inside =>
      obtain ⟨rfl, rfl⟩ := List.cons.inj haround
      cases openers with
      | nil => simp [isShortcut, List.countP_cons] at hcount
      | cons opener openers =>
        obtain ⟨rfl, rfl⟩ := List.cons.inj hlevels
        exact Or.inl ⟨inside, openers, rfl, rfl, by
          simpa [isShortcut, List.countP_cons] using hcount⟩

theorem Under.continues {c : Clause}
    (h : Under (.shortcut line label condition before) around levels a) (hc : Continues c a b) :
    Under (.shortcut line label condition before) around levels b := by
  obtain ⟨inside, openers, haround, hlevels, hcount⟩ := h
  -- The innermost construct is a conditional, so it lies inside the shortcut option.
  cases hc with
  | ends =>
    cases inside with
    | nil => cases haround
    | cons enclosing inside =>
      obtain ⟨rfl, rfl⟩ := List.cons.inj haround
      exact ⟨inside, openers, rfl, hlevels, hcount⟩
  | next =>
    cases inside with
    | nil => cases haround
    | cons enclosing inside =>
      obtain ⟨rfl, rfl⟩ := List.cons.inj haround
      exact ⟨_ :: inside, openers, rfl, hlevels, hcount⟩

/-- An open shortcut option stays open, or a marker closes it around all that has been read since it
was opened. -/
theorem Under.add (h : Under (.shortcut line label condition before) around levels a)
    (hadd : a.add t item = .ok b) :
    Under (.shortcut line label condition before) around levels b ∨
      item = .dedent ∧ b = ⟨before ++ [.shortcut line label condition a.block], around, levels⟩ := by
  obtain ⟨inside, openers, haround, hlevels, hcount⟩ := id h
  cases item with
  | space | statement =>
    cases hadd
    exact Or.inl ⟨inside, openers, haround, hlevels, hcount⟩
  | indent =>
    cases hadd
    exact Or.inl ⟨inside, .plain :: openers, haround, congrArg _ hlevels, by simpa using hcount⟩
  | dedent => exact (h.dedents (dedent_eq_ok_iff.1 hadd)).imp_right fun hb => ⟨rfl, hb⟩
  | shortcut number text found =>
    cases hadd
    refine Or.inl ⟨.shortcut number text found a.block :: inside, .shortcut :: openers,
      congrArg _ haround, congrArg _ hlevels, ?_⟩
    simpa [isShortcut, List.countP_cons] using hcount
  | ifStart number found =>
    cases hadd
    refine Or.inl ⟨.conditional number [] number (some found) a.block :: inside, openers,
      congrArg _ haround, hlevels, ?_⟩
    simpa [isShortcut] using hcount
  | clause c => exact Or.inl (h.continues (clause_eq_ok_iff.1 hadd))

/-- An open shortcut option is closed before the body ends. -/
theorem Under.exists_close {found : List Statement}
    (ha : Under (.shortcut line label condition before) around levels a)
    (h : Reaches e a tokens ⟨found, [], []⟩ left) :
    ∃ body marker rest, marker :: rest <:+ tokens ∧ marker.kind = .dedent ∧
      Reaches e ⟨before ++ [.shortcut line label condition body], around, levels⟩ rest
        ⟨found, [], []⟩ left := by
  generalize hb : (⟨found, [], []⟩ : Assembly) = b at h
  induction h with
  | here a =>
    subst hb
    obtain ⟨inside, -, haround, -⟩ := ha
    simp at haround
  | @next a b c t rest left item n first added further ih =>
    subst hb
    rcases ha.add added with hunder | ⟨rfl, rfl⟩
    · obtain ⟨body, marker, later, hlater, hrest⟩ := ih hunder rfl
      refine ⟨body, marker, later, ?_, hrest⟩
      exact hlater.trans ((List.drop_suffix n rest).trans (List.suffix_cons t rest))
    · obtain ⟨used, behind, rfl, rfl, htaken⟩ := taken_of_readItem first
      have hmarker : t.kind = .dedent ∧ used = [] := by
        generalize hitem : Item.dedent = item at htaken
        cases htaken with
        | dedent _ kind => exact ⟨kind, rfl⟩
        | @shortcut _ _ _ _ _ opens => cases opens <;> cases hitem
        | @command _ _ _ d => cases d <;> cases hitem
        | _ => cases hitem
      obtain ⟨hk, rfl⟩ := hmarker
      exact ⟨a.block, t, behind, List.suffix_rfl, hk, further⟩

end

/-- What an arrow does: its shortcut option opens where the next line is deeper than its level, and
is finished without a body otherwise. -/
theorem Reaches.arrow {m newline last : Token} {inner markers rest : List Token} {stack : List Nat}
    {width : Nat} (h : Reaches e a (m :: (inner ++ newline :: (markers ++ rest))) b [last])
    (hm : m.kind = .shortcutMarker) (hinner : ∀ t ∈ inner, t.kind ∈ TokenKind.ofLine)
    (hn : newline.kind = .newline) (hmarkers : markers.map Token.kind = markersOf stack width)
    (hrest : ∀ t ∈ rest.head?, t.kind ≠ .indent) :
    ∃ label found,
      (stack.headD 0 < width ∧ Reaches e ⟨[], .shortcut m.position.line label found a.block ::
        a.around, .shortcut :: a.levels⟩ rest b [last]) ∨
      (width ≤ stack.headD 0 ∧ .shortcut m.position.line label found [] ∈ b.held) := by
  generalize htokens : inner ++ newline :: (markers ++ rest) = tokens at h
  cases h with
  | here => simp at htokens
  | @next _ d _ _ _ _ item n first added further =>
    obtain ⟨used, behind, rfl, rfl, htaken⟩ := taken_of_readItem first
    obtain ⟨label, found, opens, own, breaks, rfl, rfl, hown, hline⟩ := htaken.of_shortcutMarker hm
    rw [List.append_assoc] at htokens
    have hbreak : ∀ t ∈ (newline :: (markers ++ rest)).head?, t.kind ∉ TokenKind.ofLine := by
      intro t ht
      cases ht
      rw [hn]
      decide
    obtain ⟨-, heq⟩ := append_inj_of_ofLine htokens hinner hown hbreak hline.kind_not_ofLine
    obtain ⟨hopens, hbehind⟩ := hline.opens_iff heq.symm hn hmarkers hrest
    refine ⟨String.ofList (Text.trim label.text), found, ?_⟩
    rw [List.drop_left] at further
    cases opens with
    | true =>
      cases added
      rw [hbehind rfl] at further
      exact Or.inl ⟨hopens.1 rfl, further⟩
    | false =>
      cases added
      have hlevel : ¬stack.headD 0 < width := fun hdeep => by cases hopens.2 hdeep
      refine Or.inr ⟨Nat.le_of_not_lt hlevel, further.held_subset ?_⟩
      simp [held, push, Statement.blockWithin_append, blockWithin, Statement.within]

end Assembly

namespace Statement

/-- All statements of a line stand in the statement `s` of a block. -/
def HoldsLine (ss : List Statement) (s : Statement) (number : Nat) : Prop :=
  ∃ front behind, blockWithin ss = front ++ s.within ++ behind ∧
    ∀ other ∈ front ++ behind, other.line ≠ number

theorem holdsLine_of_blockLines {ss : List Statement} {s : Statement} {number : Nat}
    {before behind : List Nat} (hs : s ∈ blockWithin ss)
    (hlines : blockLines ss = before ++ s.within.map line ++ behind) (hbefore : number ∉ before)
    (hbehind : number ∉ behind) : HoldsLine ss s number := by
  obtain ⟨front, after, hsplit⟩ := within_infix_of_mem_blockWithin hs
  have hcount : (blockLines ss).count number = (s.within.map line).count number := by
    rw [hlines, List.count_append, List.count_append, List.count_eq_zero.2 hbefore,
      List.count_eq_zero.2 hbehind]
    omega
  rw [blockLines, ← hsplit, List.map_append, List.map_append, List.count_append,
    List.count_append] at hcount
  have hnone : number ∉ front.map line ++ after.map line := by
    rw [← List.count_eq_zero, List.count_append]
    omega
  refine ⟨front, after, hsplit.symm, fun other hother hline => hnone ?_⟩
  rw [← List.map_append, ← hline]
  exact List.mem_map_of_mem hother

theorem mem_of_suffix_append {inner rest later : List Token} {marker t : Token}
    (h : marker :: later <:+ inner ++ rest) (hm : marker ∉ inner) (ht : t ∈ later) : t ∈ rest := by
  obtain ⟨front, heq⟩ := h
  rcases List.append_eq_append_iff.1 heq with ⟨between, rfl, hbetween⟩ | ⟨between, rfl, rfl⟩
  · cases between with
    | nil =>
      rw [List.nil_append] at hbetween
      rw [← hbetween]
      exact List.mem_cons_of_mem marker ht
    | cons u between =>
      obtain ⟨rfl, -⟩ := List.cons.inj hbetween
      exact absurd (List.mem_append_right front List.mem_cons_self) hm
  · exact List.mem_append_right _ (List.mem_cons_of_mem marker ht)

/-- A shortcut option that opens in front of a line closes behind it. -/
theorem holdsLine_of_opened {e : BodyEnd} {a : Assembly} {line number : Nat} {label : String}
    {condition : Option Expr} {inner rest left : List Token} {ss : List Statement}
    (h : Assembly.Reaches e ⟨[], .shortcut line label condition a.block :: a.around,
      .shortcut :: a.levels⟩ (inner ++ rest) ⟨ss, [], []⟩ left) (ha : number ∉ a.lines)
    (hinner : ∀ t ∈ inner, t.kind ∈ TokenKind.ofLine)
    (hrest : ∀ t ∈ rest, t.kind ∈ TokenKind.ofLine → number < t.position.line) :
    ∃ body, .shortcut line label condition body ∈ blockWithin ss ∧
      HoldsLine ss (.shortcut line label condition body) number := by
  obtain ⟨body, marker, later, hlater, hk, hclosed⟩ :=
    Assembly.Under.exists_close ⟨[], [], rfl, rfl, rfl⟩ h
  have hmarker : marker ∉ inner := by
    intro hmem
    have hkind := hinner marker hmem
    rw [hk] at hkind
    exact absurd hkind (by decide)
  obtain ⟨used, more, rfl, hlines, hmore⟩ := hclosed.lines
  have hheld : .shortcut line label condition body ∈ blockWithin ss := by
    refine hclosed.held_subset ?_
    simp [Assembly.held, blockWithin_append, blockWithin, within]
  have hbehind : number ∉ more := by
    intro hmem
    obtain ⟨t, ht, hkind, rfl⟩ := hmore number hmem
    have hin : t ∈ rest := mem_of_suffix_append hlater hmarker (List.mem_append_left _ ht)
    exact absurd (hrest t hin hkind) (Nat.lt_irrefl _)
  refine ⟨body, hheld, holdsLine_of_blockLines hheld ?_ ha hbehind⟩
  simpa [Assembly.lines, aroundLines] using hlines

/-- The statements of the content line below an arrow stand in the body of its shortcut option where
that line is wider than the level of the arrow, and the option has no body otherwise. The level is
the width of the arrow's line, if that is one of the open levels. -/
theorem shortcut_bodies_follow_levels {body : List Char} {ss : List Statement}
    {before below : List ContentLine} {arrow next : ContentLine} (h : ofBody body = .ok ss)
    (hlines : contentLines body = before ++ arrow :: next :: below)
    (harrow : Mode.atArrow arrow.content = true) :
    (arrow.width ∈ levelsOf (before ++ [arrow]) → levelOf (before ++ [arrow]) = arrow.width) ∧
      ∃ label condition inner, .shortcut arrow.number label condition inner ∈ blockWithin ss ∧
        (levelOf (before ++ [arrow]) < next.width →
          HoldsLine ss (.shortcut arrow.number label condition inner) next.number) ∧
        (next.width ≤ levelOf (before ++ [arrow]) → inner = []) := by
  refine ⟨levelOf_eq_width, ?_⟩
  obtain ⟨tokens, htokens, hread⟩ := exists_tokens_of_ofBody h
  have hstart : Assembly.InStep {} tokens := ⟨rfl, Cursor.closes_tokenize htokens⟩
  obtain ⟨last, hlast, hreach⟩ :=
    Assembly.exists_reaches_last hstart (Cursor.ended_tokenize htokens) hread
  obtain ⟨front, rest, rfl, hfront, hbegins, hlaid⟩ := Cursor.laid_line htokens hlines
  have hnumber : arrow.number < next.number := hlaid.lt_number List.mem_cons_self
  obtain ⟨own, newline, markers, lower, rfl, hown, hnewline, hmarkers, hlower⟩ :=
    hlaid.exists_break
  have hmarker := hbegins harrow
  -- The line of the arrow has the arrow as its first token.
  cases own with
  | nil =>
    have hk := hmarker newline rfl
    cases hnewline.symm.trans hk
  | cons m own =>
    have hm : m.kind = .shortcutMarker := hmarker m rfl
    obtain ⟨⟨-, hline⟩, hown⟩ := List.forall_mem_cons.1 hown
    obtain ⟨c, hto, hfrom⟩ := Assembly.Reaches.through hreach hm hlast
    obtain ⟨label, found, ⟨hdeep, hopen⟩ | ⟨hlevel, hheld⟩⟩ := hfrom.arrow hm
      (fun t ht => (hown t ht).1) hnewline hmarkers hlower.kind_ne_indent
    · obtain ⟨inner, rest, rfl, hinner, hrest⟩ := hlower.exists_lower
      have hlines : next.number ∉ c.lines := by
        intro hmem
        obtain ⟨used, more, hused, hmore, hread⟩ := hto.lines
        obtain rfl := List.append_cancel_right hused
        rw [hmore] at hmem
        obtain ⟨t, ht, hk, hnext⟩ := hread _ (by simpa [Assembly.lines, aroundLines] using hmem)
        have habove := hfront t ht hk
        omega
      rw [hline] at hopen
      obtain ⟨inside, hmem, hholds⟩ := holdsLine_of_opened hopen hlines hinner hrest
      exact ⟨label, found, inside, hmem, fun _ => hholds, fun hlevel =>
        absurd hdeep (Nat.not_lt.2 hlevel)⟩
    · rw [hline] at hheld
      exact ⟨label, found, [], hheld, fun hdeep => absurd hdeep (Nat.not_lt.2 hlevel), fun _ => rfl⟩

/-- The second arrow lies between the levels of the lines above it, and stays in the inner one. -/
def pocket : List Char := "-> A\n        a\n    -> B\n      b\n".toList

theorem ofBody_pocket : ofBody pocket = .ok
    [.shortcut 1 "A" none [.text 2 "a", .shortcut 3 "B" none [], .text 4 "b"]] := by cbv

theorem contentLines_pocket : contentLines pocket =
    [⟨1, 0, "-> A".toList⟩, ⟨2, 8, "a".toList⟩, ⟨3, 4, "-> B".toList⟩, ⟨4, 6, "b".toList⟩] := by
  decide

theorem shortcut_bodies_follow_levels_pocket :
    ∃ ss, ofBody pocket = .ok ss ∧
      (∃ label condition inner, .shortcut 1 label condition inner ∈ blockWithin ss ∧
        HoldsLine ss (.shortcut 1 label condition inner) 2) ∧
      ∃ label condition, .shortcut 3 label condition [] ∈ blockWithin ss := by
  refine ⟨_, ofBody_pocket, ?_, ?_⟩
  · have hlines : contentLines pocket = [] ++ _ :: _ :: _ := contentLines_pocket
    obtain ⟨-, label, condition, inner, hmem, hholds, -⟩ :=
      shortcut_bodies_follow_levels ofBody_pocket hlines rfl
    exact ⟨label, condition, inner, hmem, hholds (by decide)⟩
  · have hlines : contentLines pocket =
        [⟨1, 0, "-> A".toList⟩, ⟨2, 8, "a".toList⟩] ++ _ :: _ :: _ := contentLines_pocket
    obtain ⟨-, label, condition, inner, hmem, -, hnone⟩ :=
      shortcut_bodies_follow_levels ofBody_pocket hlines rfl
    rw [hnone (by decide)] at hmem
    exact ⟨label, condition, hmem⟩

/-- A line may be wider than the arrow above it and still stand beside its shortcut option. -/
theorem wider_line_beside_shortcut :
    ∃ ss before arrow next, ofBody pocket = .ok ss ∧
      contentLines pocket = before ++ [arrow, next] ∧ Mode.atArrow arrow.content = true ∧
      arrow.width < next.width ∧
      ¬∃ label condition inner, .shortcut arrow.number label condition inner ∈ blockWithin ss ∧
        HoldsLine ss (.shortcut arrow.number label condition inner) next.number := by
  refine ⟨_, [⟨1, 0, "-> A".toList⟩, ⟨2, 8, "a".toList⟩], ⟨3, 4, "-> B".toList⟩,
    ⟨4, 6, "b".toList⟩, ofBody_pocket, contentLines_pocket, rfl, by decide, ?_⟩
  rintro ⟨label, condition, inner, hmem, front, behind, hsplit, hnone⟩
  obtain ⟨rfl, rfl, rfl⟩ : label = "B" ∧ condition = none ∧ inner = [] := by
    simpa [blockWithin, within] using hmem
  have htext : .text 4 "b" ∈ front ++ within (.shortcut 3 "B" none []) ++ behind := by
    rw [← hsplit]
    simp [blockWithin, within]
  have hbeside : .text 4 "b" ∈ front ++ behind := by
    simpa [within, blockWithin] using htext
  exact hnone _ hbeside rfl

end Statement

end Dialogue
