import Dialogue.Proofs.Places
import Dialogue.Proofs.Parsed
import Dialogue.Proofs.Relocation

/-!
# Readers look no further than their line

An item is read from its own tokens, and from no more of what follows than that the
line ends there. So whatever else follows the end of a line, and on whatever lines
its tokens stand, the same items are read up to it (`readsHere_readItem`). On the
way brackets are closed one by one, and every level of indentation that tokens open
or close is opened or closed by an item.
-/

namespace Dialogue

/-- Tokens in front of which a line ends, the next one being no deeper. -/
inductive Breaks : List Token → Prop
  | newline {t : Token} {rest : List Token} (kind : t.kind = .newline)
      (level : ∀ u ∈ rest.head?, u.kind ≠ .indent) : Breaks (t :: rest)
  | dedent {t : Token} {rest : List Token} (kind : t.kind = .dedent) : Breaks (t :: rest)
  | last {t : Token} {rest : List Token} (kind : t.kind = .endOfInput) : Breaks (t :: rest)

namespace Breaks

variable {z : List Token}

theorem exists_head (h : Breaks z) : ∃ t rest, z = t :: rest ∧
    (t.kind = .newline ∨ t.kind = .dedent ∨ t.kind = .endOfInput) := by
  cases h with
  | newline kind => exact ⟨_, _, rfl, Or.inl kind⟩
  | dedent kind => exact ⟨_, _, rfl, Or.inr (Or.inl kind)⟩
  | last kind => exact ⟨_, _, rfl, Or.inr (Or.inr kind)⟩

theorem endsLine (h : Breaks z) : endsLine z = true := by
  obtain ⟨t, rest, rfl, hk | hk | hk⟩ := h.exists_head <;> simp [Dialogue.endsLine, hk]

/-- A token of another kind stands in front of the end of the line. -/
theorem peel (h : Breaks z) {x ts : List Token} {t : Token} {kind : TokenKind}
    (he : t :: ts = x ++ z) (hk : t.kind = kind)
    (hne : kind ≠ .newline ∧ kind ≠ .dedent ∧ kind ≠ .endOfInput) :
    ∃ behind, x = t :: behind ∧ ts = behind ++ z := by
  cases x with
  | nil =>
    obtain ⟨u, rest, rfl, hu⟩ := h.exists_head
    obtain ⟨rfl, -⟩ := List.cons.inj he
    rw [hk] at hu
    rcases hu with hu | hu | hu
    · exact absurd hu hne.1
    · exact absurd hu hne.2.1
    · exact absurd hu hne.2.2
  | cons u behind =>
    obtain ⟨rfl, rfl⟩ := List.cons.inj he
    exact ⟨behind, rfl, rfl⟩

theorem endsLine_append {x : List Token} (h : Breaks z) {z' : List Token} (h' : Breaks z')
    (f : Nat → Nat) :
    Dialogue.endsLine (x.map (Token.mapLine f) ++ z') = Dialogue.endsLine (x ++ z) := by
  cases x with
  | nil => exact h'.endsLine.trans h.endsLine.symm
  | cons t x => rfl

end Breaks

def modeAfter (mode : Mode) (ts : List Token) : Mode :=
  ts.foldl (fun mode t => mode.after t.kind) mode

/-- Tokens that close this many levels, and all that they open themselves. -/
def Closes : Nat → List Token → Prop
  | depth, [] => depth = 0
  | depth, t :: ts =>
    match t.kind with
    | .indent => Closes (depth + 1) ts
    | .dedent => ∃ less, depth = less + 1 ∧ Closes less ts
    | _ => Closes depth ts

def Item.Shifts : Item → Nat → Nat → Prop
  | .indent, depth, behind => behind = depth + 1
  | .shortcut .., depth, behind => behind = depth + 1
  | .dedent, depth, behind => depth = behind + 1
  | _, depth, behind => behind = depth

/-- Tokens that change no level, and leave the mode as it was. -/
structure Inline (ts : List Token) : Prop where
  mode : modeAfter .base ts = .base
  level : ∀ t ∈ ts, t.kind ≠ .indent ∧ t.kind ≠ .dedent

theorem closes_cons {t : Token} {ts : List Token} {depth : Nat} (hi : t.kind ≠ .indent)
    (hd : t.kind ≠ .dedent) (h : Closes depth (t :: ts)) : Closes depth ts := by
  unfold Closes at h
  split at h
  · rename_i hk
    exact absurd hk hi
  · rename_i hk
    exact absurd hk hd
  · exact h

theorem Closes.behind {used ts : List Token} {depth : Nat} (hc : Closes depth (used ++ ts))
    (hlevel : ∀ t ∈ used, t.kind ≠ .indent ∧ t.kind ≠ .dedent) : Closes depth ts := by
  induction used with
  | nil => exact hc
  | cons t used ih =>
    obtain ⟨hi, hd⟩ := hlevel t List.mem_cons_self
    exact ih (closes_cons hi hd hc) fun u hu => hlevel u (List.mem_cons_of_mem _ hu)

theorem Inline.closes {used ts : List Token} (h : Inline used) {depth : Nat}
    (hc : Closes depth (used ++ ts)) : Closes depth ts :=
  hc.behind h.level

theorem modeAfter_append (mode : Mode) (a b : List Token) :
    modeAfter mode (a ++ b) = modeAfter (modeAfter mode a) b :=
  List.foldl_append

theorem Inline.append {a b : List Token} (ha : Inline a) (hb : Inline b) : Inline (a ++ b) := by
  refine ⟨?_, fun t ht => ?_⟩
  · rw [modeAfter_append, ha.mode, hb.mode]
  · rcases List.mem_append.1 ht with ht | ht
    · exact ha.level t ht
    · exact hb.level t ht

theorem inline_nil : Inline [] := ⟨rfl, nofun⟩

/-! ### Conditions -/

/-- The condition that tokens begin with, if their line ends behind it. -/
def conditionAt : List Token → Except SyntaxError (Option Expr)
  | first :: command :: last :: rest =>
    let (word, n) := leadingWord command.text
    if first.kind = .commandStart ∧ command.kind = .text ∧ last.kind = .commandEnd ∧
        endsLine rest ∧ word = "if".toList then
      (command.expressionAt n).map some
    else .ok none
  | _ => .ok none

def leadTokens (tokens : List Token) : Nat :=
  if (tokens.head?.map Token.isBlankText).getD false then 1 else 0

theorem trailingCondition_eq (tokens : List Token) :
    trailingCondition tokens = (conditionAt (tokens.drop (leadTokens tokens))).map fun found =>
      (found, if found.isSome then leadTokens tokens + 3 else 0) := by
  unfold trailingCondition leadTokens
  simp only
  generalize (if (tokens.head?.map Token.isBlankText).getD false = true then 1 else 0) = lead
  generalize tokens.drop lead = behind
  match behind with
  | [] | [_] | [_, _] => rfl
  | first :: command :: last :: rest =>
    simp only [conditionAt]
    split
    · cases command.expressionAt (leadingWord command.text).2 <;> rfl
    · rfl

section

variable {x z : List Token}

theorem conditionAt_of_kind {first : Token} (rest : List Token) (h : first.kind ≠ .commandStart) :
    conditionAt (first :: rest) = .ok none := by
  match rest with
  | [] | [_] => rfl
  | command :: last :: rest => exact if_neg fun hk => h hk.1

theorem conditionAt_of_second {first command : Token} (rest : List Token)
    (h : command.kind ≠ .text) : conditionAt (first :: command :: rest) = .ok none := by
  match rest with
  | [] => rfl
  | last :: rest => exact if_neg fun hk => h hk.2.1

theorem conditionAt_of_third {first command last : Token} (rest : List Token)
    (h : last.kind ≠ .commandEnd) : conditionAt (first :: command :: last :: rest) = .ok none :=
  if_neg fun hk => h hk.2.2.1

theorem conditionAt_short (hz : Breaks z) (hx : x.length < 3) : conditionAt (x ++ z) = .ok none := by
  obtain ⟨t, rest, rfl, hk⟩ := hz.exists_head
  have hne : t.kind ≠ .commandStart ∧ t.kind ≠ .text ∧ t.kind ≠ .commandEnd := by
    rcases hk with hk | hk | hk <;> rw [hk] <;> decide
  match x with
  | [] => exact conditionAt_of_kind rest hne.1
  | [_] => exact conditionAt_of_second rest hne.2.1
  | [_, _] => exact conditionAt_of_third rest hne.2.2
  | _ :: _ :: _ :: _ =>
    simp only [List.length_cons] at hx
    omega

theorem conditionAt_local (hz : Breaks z) {found : Option Expr}
    (h : conditionAt (x ++ z) = .ok found) :
    (found.isSome → ∃ used behind, x = used ++ behind ∧ used.length = 3 ∧ Inline used) ∧
      ∀ f z', Breaks z' → conditionAt (x.map (Token.mapLine f) ++ z') =
        .ok (found.map (Expr.mapLines f)) := by
  by_cases hx : x.length < 3
  · rw [conditionAt_short hz hx] at h
    cases h
    refine ⟨nofun, fun f z' hz' => conditionAt_short hz' ?_⟩
    rw [List.length_map]
    exact hx
  · match x with
    | [] | [_] | [_, _] => simp at hx
    | first :: command :: last :: behind =>
      simp only [List.cons_append, conditionAt] at h
      split at h
      · rename_i hk
        obtain ⟨e, he, rfl⟩ := exists_of_map_eq_ok h
        refine ⟨fun _ => ⟨[first, command, last], behind, rfl, rfl, ?_⟩, fun f z' hz' => ?_⟩
        · refine ⟨?_, fun t ht => ?_⟩
          · simp [modeAfter, hk.1, hk.2.1, hk.2.2.1, Mode.after]
          · simp only [List.mem_cons, List.not_mem_nil, or_false] at ht
            rcases ht with rfl | rfl | rfl
            · simp [hk.1]
            · simp [hk.2.1]
            · simp [hk.2.2.1]
        · have hends := (Breaks.endsLine_append (x := behind) hz hz' f).trans hk.2.2.2.1
          refine (if_pos ⟨hk.1, hk.2.1, hk.2.2.1, hends, hk.2.2.2.2⟩).trans ?_
          exact congrArg (Except.map some) (expressionAt_mapLine he)
      · rename_i hk
        cases h
        refine ⟨nofun, fun f z' hz' => if_neg fun hk' => hk ?_⟩
        rw [← Breaks.endsLine_append (x := behind) hz hz' f]
        exact hk'

theorem inline_of_isBlankText {t : Token} (h : t.isBlankText = true) : Inline [t] := by
  have hk : t.kind = .text := by
    simp only [Token.isBlankText, Bool.and_eq_true, beq_iff_eq] at h
    exact h.1
  refine ⟨?_, fun u hu => ?_⟩
  · simp [modeAfter, hk, Mode.after]
  · rw [List.mem_singleton.1 hu, hk]
    decide

theorem leadTokens_local (x : List Token) : ∃ lead behind, x = lead ++ behind ∧ Inline lead ∧
    ∀ f z, Breaks z → leadTokens (x.map (Token.mapLine f) ++ z) = lead.length := by
  cases x with
  | nil =>
    refine ⟨[], [], rfl, inline_nil, fun f z hz => ?_⟩
    obtain ⟨t, rest, rfl, hk⟩ := hz.exists_head
    have hblank : t.isBlankText = false := by
      rcases hk with hk | hk | hk <;> simp [Token.isBlankText, hk]
    simp [leadTokens, hblank]
  | cons t x =>
    have hlead : ∀ f z, leadTokens ((t :: x).map (Token.mapLine f) ++ z) =
        if t.isBlankText then 1 else 0 := fun _ _ => rfl
    cases hb : t.isBlankText with
    | true =>
      refine ⟨[t], x, rfl, inline_of_isBlankText hb, fun f z _ => ?_⟩
      rw [hlead, hb]
      rfl
    | false =>
      refine ⟨[], t :: x, rfl, inline_nil, fun f z _ => ?_⟩
      rw [hlead, hb]
      rfl

theorem map_mapLine_id (ts : List Token) : ts.map (Token.mapLine id) = ts :=
  List.map_id ts

theorem trailingCondition_local (hz : Breaks z) {found : Option Expr} {k : Nat}
    (h : trailingCondition (x ++ z) = .ok (found, k)) :
    ∃ used behind, x = used ++ behind ∧ used.length = k ∧ Inline used ∧
      ∀ f z', Breaks z' → trailingCondition (x.map (Token.mapLine f) ++ z') =
        .ok (found.map (Expr.mapLines f), k) := by
  obtain ⟨lead, behind, rfl, hinline, hlength⟩ := leadTokens_local x
  have hown := hlength id z hz
  rw [map_mapLine_id] at hown
  rw [trailingCondition_eq, hown, List.append_assoc, List.drop_left] at h
  obtain ⟨found', hcondition, heq⟩ := exists_of_map_eq_ok h
  obtain ⟨rfl, rfl⟩ := Prod.mk.inj heq
  obtain ⟨hused, hother⟩ := conditionAt_local hz hcondition
  have hmapped : ∀ f z', Breaks z' →
      trailingCondition ((lead ++ behind).map (Token.mapLine f) ++ z') =
        .ok (found'.map (Expr.mapLines f), if found'.isSome then lead.length + 3 else 0) := by
    intro f z' hz'
    have hdrop : ((lead ++ behind).map (Token.mapLine f) ++ z').drop lead.length =
        behind.map (Token.mapLine f) ++ z' := by
      rw [List.map_append, List.append_assoc]
      exact List.drop_left' (List.length_map _)
    rw [trailingCondition_eq, hlength f z' hz', hdrop, hother f z' hz', Except.map,
      Option.isSome_map]
  cases hf : found'.isSome with
  | false =>
    rw [hf] at hmapped
    exact ⟨[], lead ++ behind, rfl, rfl, inline_nil, hmapped⟩
  | true =>
    rw [hf] at hmapped
    obtain ⟨used, rest, rfl, hthree, hinner⟩ := hused hf
    refine ⟨lead ++ used, rest, (List.append_assoc ..).symm, ?_, hinline.append hinner, hmapped⟩
    rw [List.length_append, hthree]
    rfl

end

/-! ### Items -/

def Item.mapLines (f : Nat → Nat) : Item → Item
  | .space => .space
  | .indent => .indent
  | .dedent => .dedent
  | .statement s => .statement (s.mapLines f)
  | .shortcut line label condition =>
    .shortcut (f line) label (condition.map (Expr.mapLines f))
  | .ifStart line condition => .ifStart (f line) (condition.mapLines f)
  | .clause c => .clause
    ⟨c.kind.mapLines f, c.content, ⟨f c.position.line, c.position.column⟩⟩

/-- The tokens of an item close the brackets they open, and change levels as the item does. -/
structure Takes (t : Token) (used : List Token) (item : Item) : Prop where
  mode : modeAfter .base (t :: used) = .base
  closes : ∀ depth ts, Closes depth (t :: (used ++ ts)) →
    ∃ behind, item.Shifts depth behind ∧ Closes behind ts

theorem Inline.takes {t : Token} {used : List Token} {item : Item} (h : Inline (t :: used))
    (hi : ∀ depth, item.Shifts depth depth) : Takes t used item :=
  ⟨h.mode, fun depth _ hc => ⟨depth, hi depth, h.closes hc⟩⟩

def Leaves (t : Token) (used behind : List Token) (item : Item) : Prop :=
  ∀ f e z, Breaks z → ∃ n,
    readItem e (t.mapLine f) ((used ++ behind).map (Token.mapLine f) ++ z) =
        .ok (item.mapLines f, n) ∧
      ∀ a : Assembly, a.read e (((used ++ behind).map (Token.mapLine f) ++ z).drop n) =
        a.read e (behind.map (Token.mapLine f) ++ z)

/-- The item is read from some of these tokens, whatever follows the end of its line. -/
def ReadsHere (t : Token) (x : List Token) (item : Item) : Prop :=
  ∃ used behind, x = used ++ behind ∧ Takes t used item ∧ Leaves t used behind item

section

variable {e : BodyEnd} {t : Token} {x z : List Token} {item : Item} {n : Nat}

theorem readOption_of_optionRead {tokens : List Token} (h : OptionRead t tokens item n)
    (e : BodyEnd) : readOption e t tokens = .ok (item, n) := by
  cases h with
  | link text ne_nil closing condition =>
    simp [readOption, BodyEnd.expect, text, ne_nil, closing, condition, bind, Except.bind, pure,
      Except.pure]
  | option text ne_nil separator destination closing condition =>
    simp [readOption, BodyEnd.expect, text, ne_nil, separator, destination, closing, condition,
      bind, Except.bind, pure, Except.pure]

theorem drop_map_append (f : Nat → Nat) (used behind : List Token) :
    ((used ++ behind).map (Token.mapLine f) ++ z).drop used.length =
      behind.map (Token.mapLine f) ++ z := by
  rw [List.map_append, List.append_assoc]
  exact List.drop_left' (List.length_map _)

theorem readsHere_option (hk : t.kind = .optionStart) (hz : Breaks z)
    (h : OptionRead t (x ++ z) item n) : ReadsHere t x item := by
  have hread : ∀ f e tokens item n, OptionRead (t.mapLine f) tokens item n →
      readItem e (t.mapLine f) tokens = .ok (item, n) := by
    intro f e tokens item n ho
    unfold readItem
    rw [Token.mapLine_kind, hk]
    exact readOption_of_optionRead ho e
  generalize hx : x ++ z = tokens at h
  cases h with
  | @link label close rest k text ne_nil closing condition =>
    obtain ⟨x₁, rfl, hx₁⟩ := hz.peel hx.symm text (by decide)
    obtain ⟨x₂, rfl, rfl⟩ := hz.peel hx₁ closing (by decide)
    obtain ⟨-, -, -, -, -, hother⟩ := trailingCondition_local hz condition
    refine ⟨[label, close], x₂, rfl, Inline.takes ⟨?_, ?_⟩ fun _ => rfl, fun f e z' hz' => ?_⟩
    · simp [modeAfter, hk, text, closing, Mode.after]
    · simp [hk, text, closing]
    · refine ⟨2, hread f e _ _ _ ?_, fun a => rfl⟩
      exact OptionRead.link text ne_nil closing (hother f z' hz')
  | @option label bar target close rest found k text ne_nil separator destination closing
      condition =>
    obtain ⟨x₁, rfl, hx₁⟩ := hz.peel hx.symm text (by decide)
    obtain ⟨x₂, rfl, hx₂⟩ := hz.peel hx₁ separator (by decide)
    obtain ⟨x₃, rfl, hx₃⟩ := hz.peel hx₂ destination (by decide)
    obtain ⟨x₄, rfl, rfl⟩ := hz.peel hx₃ closing (by decide)
    obtain ⟨used, behind, rfl, rfl, hinline, hother⟩ := trailingCondition_local hz condition
    have hbrackets : Inline [t, label, bar, target, close] := by
      refine ⟨?_, ?_⟩
      · simp [modeAfter, hk, text, separator, destination, closing, Mode.after]
      · simp [hk, text, separator, destination, closing]
    refine ⟨label :: bar :: target :: close :: used, behind, rfl,
      Inline.takes (hbrackets.append hinline) fun _ => rfl, fun f e z' hz' => ?_⟩
    refine ⟨4 + used.length, hread f e _ _ _ ?_, fun a => ?_⟩
    · exact OptionRead.option text ne_nil separator destination closing (hother f z' hz')
    · have hdrop := drop_map_append (z := z') f (label :: bar :: target :: close :: used) behind
      rw [List.length_cons, List.length_cons, List.length_cons, List.length_cons] at hdrop
      rw [← hdrop, Nat.add_comm 4]

theorem Directive.item_mapLines (f : Nat → Nat) (start command : Token) (d : Directive) :
    (d.mapLines f).item (start.mapLine f) (command.mapLine f) = (d.item start command).mapLines f := by
  cases d <;> rfl

theorem readsHere_command (hk : t.kind = .commandStart) (hz : Breaks z)
    (h : CommandRead t (x ++ z) item n) : ReadsHere t x item := by
  generalize hx : x ++ z = tokens at h
  cases h with
  | @read command close rest d text closing directive =>
    obtain ⟨x₁, rfl, hx₁⟩ := hz.peel hx.symm text (by decide)
    obtain ⟨x₂, rfl, rfl⟩ := hz.peel hx₁ closing (by decide)
    refine ⟨[command, close], x₂, rfl, Inline.takes ⟨?_, ?_⟩ ?_, fun f e z' hz' => ?_⟩
    · simp [modeAfter, hk, text, closing, Mode.after]
    · simp [hk, text, closing]
    · cases d <;> exact fun _ => rfl
    · refine ⟨2, ?_, fun a => rfl⟩
      rw [← Directive.item_mapLines]
      exact readItem_command e _ hk text closing (readDirective_mapLine directive)

theorem readShortcut_of_shortcutHead {tokens : List Token} (h : ShortcutHead t tokens item n)
    (e : BodyEnd) : readShortcut e t tokens = .ok (item, n) := by
  cases h with
  | @read label rest found k m opens text ne_nil condition line breaks =>
    cases opens <;> simp [readShortcut, BodyEnd.expect, text, ne_nil, condition, line, breaks,
      shortcutItem, bind, Except.bind, pure, Except.pure]

theorem shortcutItem_mapLines (f : Nat → Nat) (marker label : Token) (found : Option Expr)
    (opens : Bool) :
    shortcutItem (marker.mapLine f) (label.mapLine f) (found.map (Expr.mapLines f)) opens =
      (shortcutItem marker label found opens).mapLines f := by
  cases opens <;> rfl

theorem lineBreakTokens_of_kind {u : Token} (rest : List Token) (h : u.kind ≠ .newline) :
    lineBreakTokens (u :: rest) = (0, false) := by
  cases rest <;> simp [lineBreakTokens, h]

theorem lineBreakTokens_newline {u : Token} (rest : List Token) (h : u.kind = .newline)
    (hr : ∀ v ∈ rest.head?, v.kind ≠ .indent) : lineBreakTokens (u :: rest) = (1, false) := by
  cases rest with
  | nil => simp [lineBreakTokens, h]
  | cons v rest => simp [lineBreakTokens, h, hr v rfl]

/-- The tokens of a line break: a level opens below it, or none does. -/
def BreakTokens (used : List Token) : Bool → Prop
  | true => ∃ u v, used = [u, v] ∧ u.kind = .newline ∧ v.kind = .indent
  | false => Inline used

theorem inline_newline {u : Token} (h : u.kind = .newline) : Inline [u] := by
  refine ⟨?_, fun t ht => ?_⟩
  · simp [modeAfter, h, Mode.after]
  · rw [List.mem_singleton.1 ht, h]
    decide

theorem Breaks.head_ne_indent (h : Breaks z) : ∀ v ∈ z.head?, v.kind ≠ .indent := by
  obtain ⟨t, rest, rfl, hk⟩ := h.exists_head
  intro v hv
  cases hv
  rcases hk with hk | hk | hk <;> rw [hk] <;> decide

theorem Breaks.lineBreakTokens (h : Breaks z) :
    ∃ m, lineBreakTokens z = (m, false) ∧ ∀ (e : BodyEnd) (a : Assembly),
      a.read e (z.drop m) = a.read e z := by
  cases h with
  | newline kind level =>
    exact ⟨1, lineBreakTokens_newline _ kind level,
      fun e a => (Assembly.read_newline e _ a kind).symm⟩
  | dedent kind => exact ⟨0, lineBreakTokens_of_kind _ (by rw [kind]; decide), fun _ _ => rfl⟩
  | last kind => exact ⟨0, lineBreakTokens_of_kind _ (by rw [kind]; decide), fun _ _ => rfl⟩

theorem lineBreakTokens_local (x : List Token) :
    ∃ used behind opens, x = used ++ behind ∧ BreakTokens used opens ∧ ∀ f z, Breaks z →
      ∃ m, lineBreakTokens (x.map (Token.mapLine f) ++ z) = (m, opens) ∧
        ∀ (e : BodyEnd) (a : Assembly), a.read e ((x.map (Token.mapLine f) ++ z).drop m) =
          a.read e (behind.map (Token.mapLine f) ++ z) := by
  cases x with
  | nil => exact ⟨[], [], false, rfl, inline_nil, fun f z hz => hz.lineBreakTokens⟩
  | cons u x =>
    by_cases hu : u.kind = .newline
    · cases x with
      | nil =>
        refine ⟨[u], [], false, rfl, inline_newline hu, fun f z hz => ⟨1, ?_, fun _ _ => rfl⟩⟩
        exact lineBreakTokens_newline z hu hz.head_ne_indent
      | cons v x =>
        by_cases hv : v.kind = .indent
        · refine ⟨[u, v], x, true, rfl, ⟨u, v, rfl, hu, hv⟩, fun f z _ => ⟨2, ?_, fun _ _ => rfl⟩⟩
          simp [lineBreakTokens, hu, hv]
        · refine ⟨[u], v :: x, false, rfl, inline_newline hu, fun f z _ => ⟨1, ?_, fun _ _ => rfl⟩⟩
          refine lineBreakTokens_newline _ hu fun w hw => ?_
          cases hw
          exact hv
    · refine ⟨[], u :: x, false, rfl, inline_nil, fun f z _ => ⟨0, ?_, fun _ _ => rfl⟩⟩
      exact lineBreakTokens_of_kind _ hu

theorem BreakTokens.takes {used behind : List Token} {opens : Bool} {label : Token}
    {found : Option Expr} (hinline : Inline (t :: behind)) (h : BreakTokens used opens) :
    Takes t (behind ++ used) (shortcutItem t label found opens) := by
  cases opens with
  | false => exact (hinline.append h).takes fun _ => rfl
  | true =>
    obtain ⟨u, v, rfl, hu, hv⟩ := h
    have hline := hinline.append (inline_newline hu)
    refine ⟨?_, fun depth ts hc => ⟨depth + 1, rfl, ?_⟩⟩
    · rw [← List.cons_append, modeAfter_append, hinline.mode]
      simp [modeAfter, hu, hv, Mode.after]
    · have hlist : t :: (behind ++ [u, v] ++ ts) = (t :: behind ++ [u]) ++ v :: ts := by simp
      rw [hlist] at hc
      have hlevel := hline.closes hc
      unfold Closes at hlevel
      rw [hv] at hlevel
      exact hlevel

theorem readsHere_shortcut (hk : t.kind = .shortcutMarker) (hz : Breaks z)
    (h : ShortcutHead t (x ++ z) item n) : ReadsHere t x item := by
  generalize hx : x ++ z = tokens at h
  cases h with
  | @read label rest found k m opens text ne_nil condition line breaks =>
    obtain ⟨x₁, rfl, rfl⟩ := hz.peel hx.symm text (by decide)
    obtain ⟨used, behind, rfl, rfl, hinline, hother⟩ := trailingCondition_local hz condition
    obtain ⟨last, rest, opens', rfl, hlast, hbreak⟩ := lineBreakTokens_local behind
    have hhead : Inline (t :: label :: used) := by
      have hlabel : Inline [t, label] := by
        refine ⟨?_, ?_⟩
        · simp [modeAfter, hk, text, Mode.after]
        · simp [hk, text]
      exact hlabel.append hinline
    have hdrop : ∀ f z', (((used ++ (last ++ rest)).map (Token.mapLine f)) ++ z').drop used.length =
        (last ++ rest).map (Token.mapLine f) ++ z' := fun f z' => drop_map_append f used _
    -- The line break is the same wherever the line stands, so the item is.
    obtain rfl : opens' = opens := by
      obtain ⟨m', hm', -⟩ := hbreak id z hz
      rw [← hdrop, map_mapLine_id, breaks] at hm'
      exact (Prod.mk.inj hm').2.symm
    refine ⟨label :: used ++ last, rest, by simp, hlast.takes hhead, fun f e z' hz' => ?_⟩
    rw [List.cons_append, List.cons_append, List.append_assoc]
    obtain ⟨m', hm', hread⟩ := hbreak f z' hz'
    refine ⟨1 + used.length + m', ?_, fun a => ?_⟩
    · have hline : endsLine ((((used ++ (last ++ rest)).map (Token.mapLine f)) ++ z').drop
          used.length) = true := by
        rw [hdrop, Breaks.endsLine_append hz hz' f, ← line, List.append_assoc used, List.drop_left]
      have hshortcut : ShortcutHead (t.mapLine f)
          ((label :: (used ++ (last ++ rest))).map (Token.mapLine f) ++ z')
          (shortcutItem (t.mapLine f) (label.mapLine f) (found.map (Expr.mapLines f)) opens')
          (1 + used.length + m') :=
        .read text ne_nil (hother f z' hz') hline ((congrArg _ (hdrop f z')).trans hm')
      rw [← shortcutItem_mapLines]
      unfold readItem
      rw [Token.mapLine_kind, hk]
      exact readShortcut_of_shortcutHead hshortcut e
    · rw [← hread e a, ← hdrop f z', List.drop_drop, Nat.add_assoc 1, Nat.add_comm 1]
      rfl

/-- Readers look no further than the end of their line. -/
theorem readsHere_readItem (hz : Breaks z) (h : readItem e t (x ++ z) = .ok (item, n)) :
    ReadsHere t x item := by
  have halone : ∀ found, (∀ f e rest, readItem e (t.mapLine f) rest = .ok (found.mapLines f, 0)) →
      Takes t [] found → ReadsHere t x found := fun found hread htakes =>
    ⟨[], x, rfl, htakes, fun f e z' _ => ⟨0, hread f e _, fun _ => rfl⟩⟩
  have hinline : t.kind = .text → Inline [t] := by
    intro hk
    refine ⟨by simp [modeAfter, hk, Mode.after], fun u hu => ?_⟩
    rw [List.mem_singleton.1 hu, hk]
    decide
  cases itemRead_of_readItem h with
  | newline kind =>
    refine halone _ (fun f e rest => ?_) ((inline_newline kind).takes fun _ => rfl)
    simp only [readItem, Token.mapLine_kind, kind]
    rfl
  | indent kind =>
    refine halone _ (fun f e rest => ?_) ⟨?_, fun depth ts hc => ⟨depth + 1, rfl, ?_⟩⟩
    · simp only [readItem, Token.mapLine_kind, kind]
      rfl
    · simp [modeAfter, kind, Mode.after]
    · simp only [List.nil_append, Closes, kind] at hc
      exact hc
  | dedent kind =>
    refine halone _ (fun f e rest => ?_) ⟨?_, fun depth ts hc => ?_⟩
    · simp only [readItem, Token.mapLine_kind, kind]
      rfl
    · simp [modeAfter, kind, Mode.after]
    · simp only [List.nil_append, Closes, kind] at hc
      exact hc
  | blank kind blank =>
    refine halone _ (fun f e rest => ?_) ((hinline kind).takes fun _ => rfl)
    simp only [readItem, Token.mapLine_kind, kind]
    exact if_pos blank
  | text kind ne_nil =>
    refine halone _ (fun f e rest => ?_) ((hinline kind).takes fun _ => rfl)
    simp only [readItem, Token.mapLine_kind, kind]
    exact if_neg ne_nil
  | option kind read => exact readsHere_option kind hz read
  | shortcut kind read => exact readsHere_shortcut kind hz read
  | command kind read => exact readsHere_command kind hz read

end

end Dialogue
