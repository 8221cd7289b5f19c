import Mathlib.Computability.DFA
import Dialogue.Proofs.Recasting

/-!
# The order of tokens

Which kind of token may come next depends on little of what came before: on the bracket
that is open, on whether text has just ended, and on how the line began. A finite automaton
over these phases (`order`) accepts the kinds of the tokens of every body. What the words of
its language look like is read off its table (`Orderly`).
-/

namespace Dialogue

instance : Fintype TokenKind := ⟨⟨TokenKind.all, by decide⟩, TokenKind.mem_all⟩

/-- What the next kind of token depends on. -/
inductive Phase where
  | start
  | lineBreak
  | deeper
  | shallower
  | prose
  /-- On a line, behind anything else than prose. -/
  | line
  | optionHead
  | optionText
  | target
  | commandHead
  | commandText
  /-- Behind the last line, where the levels that are still open are closed. -/
  | closing
  | ended
  /-- Behind a token out of order. -/
  | stuck
deriving DecidableEq, Repr

namespace Phase

def all : List Phase :=
  [start, lineBreak, deeper, shallower, prose, line, optionHead, optionText, target, commandHead,
    commandText, closing, ended, stuck]

instance : Fintype Phase := ⟨⟨all, by decide⟩, fun phase => by cases phase <;> decide⟩

/-- The phases in front of the first token of a line. -/
def fresh : List Phase := [start, lineBreak, deeper, shallower]

def outside : List Phase := [prose, line]

def bracketed : List Phase := [optionHead, optionText, target, commandHead, commandText]

def endings : List Phase := [lineBreak, shallower, closing] ++ outside ++ bracketed

def next (phase : Phase) : TokenKind → Phase
  | .text =>
    if phase ∈ line :: fresh then prose
    else if phase = optionHead then optionText
    else if phase = commandHead then commandText else stuck
  | .identifier => if phase = target then target else stuck
  | .newline => if phase ∈ start :: outside then lineBreak else stuck
  | .optionStart => if phase ∈ fresh ++ outside then optionHead else stuck
  | .optionSep => if phase ∈ [optionHead, optionText] then target else stuck
  | .optionEnd => if phase ∈ [optionHead, optionText, target] then line else stuck
  | .commandStart => if phase ∈ fresh ++ outside then commandHead else stuck
  | .commandEnd => if phase ∈ [commandHead, commandText] then line else stuck
  | .shortcutMarker => if phase ∈ fresh then line else stuck
  | .indent => if phase = lineBreak then deeper else stuck
  | .dedent =>
    if phase ∈ [lineBreak, shallower] then shallower
    else if phase ∈ endings then closing else stuck
  | .endOfInput => if phase ∈ start :: endings then ended else stuck
  | .invalid => stuck

end Phase

/-- The automaton that reads the kinds of tokens of a body. -/
def order : DFA TokenKind Phase where
  step := Phase.next
  start := .start
  accept := {.ended}

theorem order_isRegular : order.accepts.IsRegular := ⟨Phase, inferInstance, order, rfl⟩

/-! ### Words -/

/-- Levels are closed until the body is over. -/
def OnlyCloses (kinds : List TokenKind) : Prop :=
  ∃ n, kinds = List.replicate n .dedent ++ [.endOfInput]

def AtMostText (kinds : List TokenKind) : Prop := kinds = [] ∨ kinds = [.text]

/-- A bracket is open at the end, with at most a text in it. -/
def Opened (bracket : TokenKind) (kinds : List TokenKind) : Prop :=
  ∃ front inner : List TokenKind, kinds = front ++ bracket :: inner ∧ AtMostText inner

/-- An option is open at the end, behind its separator and some identifiers. -/
def Targeted (kinds : List TokenKind) : Prop :=
  ∃ (front : List TokenKind) (n : Nat), Opened .optionStart front ∧
    kinds = front ++ .optionSep :: List.replicate n .identifier

/-- The order of tokens in a body. -/
structure Orderly (kinds : List TokenKind) : Prop where
  text : ¬[.text, .text] <:+: kinds
  newline : ¬[.newline, .newline] <:+: kinds
  command : ∀ before after : List TokenKind, kinds = before ++ .commandStart :: after →
    ∃ inner rest : List TokenKind, after = inner ++ rest ∧ AtMostText inner ∧
      (rest.head? = some .commandEnd ∨ OnlyCloses rest)
  option : ∀ before after : List TokenKind, kinds = before ++ .optionStart :: after →
    ∃ inner rest : List TokenKind, after = inner ++ rest ∧ AtMostText inner ∧
      (rest.head? = some .optionEnd ∨ OnlyCloses rest ∨
        ∃ (n : Nat) (behind : List TokenKind),
          rest = .optionSep :: (List.replicate n .identifier ++ behind) ∧
          (behind.head? = some .optionEnd ∨ OnlyCloses behind))
  /-- Brackets close, and separators and identifiers stand, only where a bracket is open. -/
  commandEnd : ∀ before after : List TokenKind, kinds = before ++ .commandEnd :: after →
    Opened .commandStart before
  optionSep : ∀ before after : List TokenKind, kinds = before ++ .optionSep :: after →
    Opened .optionStart before
  optionEnd : ∀ before after : List TokenKind, kinds = before ++ .optionEnd :: after →
    Opened .optionStart before ∨ Targeted before
  identifier : ∀ before after : List TokenKind, kinds = before ++ .identifier :: after →
    Targeted before
  /-- An arrow stands first of all, or first on its line. -/
  shortcutMarker : ∀ before after : List TokenKind, kinds = before ++ .shortcutMarker :: after →
    ∀ kind ∈ before.getLast?, kind ∈ [.newline, .indent, .dedent]
  indent : ∀ before after : List TokenKind, kinds = before ++ .indent :: after →
    before.getLast? = some .newline
  dedent : ∀ before after : List TokenKind, kinds = before ++ .dedent :: after →
    before.getLast? = some .newline ∨ before.getLast? = some .dedent ∨ OnlyCloses after
  endOfInput : ∃ before : List TokenKind, kinds = before ++ [.endOfInput] ∧ .endOfInput ∉ before

namespace Phase

variable {p : Phase} {kind : TokenKind} {w : List TokenKind}

theorem evalFrom_stuck (w : List TokenKind) : order.evalFrom stuck w = stuck := by
  induction w with
  | nil => rfl
  | cons kind w ih =>
    have hstuck : order.step stuck kind = stuck := by cases kind <;> rfl
    rw [DFA.evalFrom_cons, hstuck, ih]

theorem next_ne_stuck (h : order.evalFrom p (kind :: w) = ended) : p.next kind ≠ stuck := by
  intro hstuck
  have hnext : order.evalFrom (p.next kind) w = ended := h
  rw [hstuck, evalFrom_stuck] at hnext
  cases hnext

theorem exists_next (h : order.evalFrom p w = ended) (hp : p ≠ ended) :
    ∃ kind rest, w = kind :: rest ∧ p.next kind ≠ stuck ∧
      order.evalFrom (p.next kind) rest = ended := by
  cases w with
  | nil => exact absurd h hp
  | cons kind rest => exact ⟨kind, rest, rfl, next_ne_stuck h, h⟩

theorem eq_nil_of_ended (h : order.evalFrom ended w = ended) : w = [] := by
  cases w with
  | nil => rfl
  | cons kind rest =>
    have hstuck : ended.next kind = stuck := by cases kind <;> rfl
    exact absurd hstuck (next_ne_stuck h)

theorem onlyCloses_of_closing (h : order.evalFrom closing w = ended) : OnlyCloses w := by
  induction w with
  | nil => cases h
  | cons kind w ih =>
    have hnext : ∀ kind, closing.next kind ≠ stuck →
        kind = .dedent ∨ kind = .endOfInput := by decide
    rcases hnext kind (next_ne_stuck h) with rfl | rfl
    · obtain ⟨n, rfl⟩ := ih h
      exact ⟨n + 1, rfl⟩
    · rw [eq_nil_of_ended h]
      exact ⟨0, rfl⟩

theorem onlyCloses_cons (h : order.evalFrom (p.next kind) w = ended)
    (hnext : p.next kind = closing ∨ p.next kind = ended) : OnlyCloses (kind :: w) := by
  have hkind : ∀ (p : Phase) (kind : TokenKind), (p.next kind = closing → kind = .dedent) ∧
      (p.next kind = ended → kind = .endOfInput) := by decide
  rcases hnext with hnext | hnext
  · rw [hnext] at h
    obtain ⟨n, rfl⟩ := onlyCloses_of_closing h
    rw [(hkind p kind).1 hnext]
    exact ⟨n + 1, rfl⟩
  · rw [hnext] at h
    rw [(hkind p kind).2 hnext, eq_nil_of_ended h]
    exact ⟨0, rfl⟩

theorem exists_inner {head full : Phase} (htext : head.next .text = full)
    (hfull : full.next .text = stuck) (h : order.evalFrom head w = ended) :
    ∃ (inner rest : List TokenKind) (q : Phase), w = inner ++ rest ∧ AtMostText inner ∧
      q ∈ [head, full] ∧ order.evalFrom q rest = ended ∧ rest.head? ≠ some .text := by
  cases w with
  | nil => exact ⟨[], [], head, rfl, Or.inl rfl, List.mem_cons_self, h, nofun⟩
  | cons kind rest =>
    by_cases hk : kind = .text
    · subst hk
      have hrest : order.evalFrom full rest = ended := htext ▸ h
      refine ⟨[.text], rest, full, rfl, Or.inr rfl, by simp, hrest, fun hhead => ?_⟩
      obtain ⟨more, rfl⟩ := List.head?_eq_some_iff.1 hhead
      exact next_ne_stuck hrest hfull
    · exact ⟨[], kind :: rest, head, rfl, Or.inl rfl, List.mem_cons_self, h, by simpa using hk⟩

theorem behind_commandStart (h : order.evalFrom commandHead w = ended) :
    ∃ inner rest : List TokenKind, w = inner ++ rest ∧ AtMostText inner ∧
      (rest.head? = some .commandEnd ∨ OnlyCloses rest) := by
  have hkinds : ∀ q ∈ [commandHead, commandText], q ≠ ended ∧ ∀ kind, q.next kind ≠ stuck →
      kind = .text ∨ kind = .commandEnd ∨ q.next kind = closing ∨ q.next kind = ended := by decide
  obtain ⟨inner, rest, q, rfl, hinner, hq, hrest, hhead⟩ := exists_inner rfl rfl h
  obtain ⟨hne, hnext⟩ := hkinds q hq
  obtain ⟨kind, behind, rfl, hlive, hbehind⟩ := exists_next hrest hne
  refine ⟨inner, kind :: behind, rfl, hinner, ?_⟩
  rcases hnext kind hlive with rfl | rfl | hcloses
  · exact absurd rfl hhead
  · exact Or.inl rfl
  · exact Or.inr (onlyCloses_cons hbehind hcloses)

theorem behind_optionSep (h : order.evalFrom target w = ended) :
    ∃ (n : Nat) (behind : List TokenKind), w = List.replicate n .identifier ++ behind ∧
      (behind.head? = some .optionEnd ∨ OnlyCloses behind) := by
  have hkinds : ∀ kind, target.next kind ≠ stuck → kind = .identifier ∨ kind = .optionEnd ∨
      target.next kind = closing ∨ target.next kind = ended := by decide
  induction w with
  | nil => cases h
  | cons kind w ih =>
    rcases hkinds kind (next_ne_stuck h) with rfl | rfl | hcloses
    · obtain ⟨n, behind, rfl, hbehind⟩ := ih h
      exact ⟨n + 1, behind, rfl, hbehind⟩
    · exact ⟨0, _, rfl, Or.inl rfl⟩
    · exact ⟨0, _, rfl, Or.inr (onlyCloses_cons h hcloses)⟩

theorem behind_optionStart (h : order.evalFrom optionHead w = ended) :
    ∃ inner rest : List TokenKind, w = inner ++ rest ∧ AtMostText inner ∧
      (rest.head? = some .optionEnd ∨ OnlyCloses rest ∨
        ∃ (n : Nat) (behind : List TokenKind),
          rest = .optionSep :: (List.replicate n .identifier ++ behind) ∧
          (behind.head? = some .optionEnd ∨ OnlyCloses behind)) := by
  have hkinds : ∀ q ∈ [optionHead, optionText], q ≠ ended ∧ q.next .optionSep = target ∧
      ∀ kind, q.next kind ≠ stuck → kind = .text ∨ kind = .optionEnd ∨ kind = .optionSep ∨
        q.next kind = closing ∨ q.next kind = ended := by decide
  obtain ⟨inner, rest, q, rfl, hinner, hq, hrest, hhead⟩ := exists_inner rfl rfl h
  obtain ⟨hne, hsep, hnext⟩ := hkinds q hq
  obtain ⟨kind, behind, rfl, hlive, hbehind⟩ := exists_next hrest hne
  refine ⟨inner, kind :: behind, rfl, hinner, ?_⟩
  rcases hnext kind hlive with rfl | rfl | rfl | hcloses
  · exact absurd rfl hhead
  · exact Or.inl rfl
  · rw [hsep] at hbehind
    obtain ⟨n, more, rfl, hmore⟩ := behind_optionSep hbehind
    exact Or.inr (Or.inr ⟨n, more, rfl, hmore⟩)
  · exact Or.inr (Or.inl (onlyCloses_cons hbehind hcloses))

theorem eval_eq_next (h : order.eval w ≠ start) :
    ∃ front kind, w = front ++ [kind] ∧ order.eval w = (order.eval front).next kind := by
  rcases List.eq_nil_or_concat' w with rfl | ⟨front, kind, rfl⟩
  · exact absurd rfl h
  · exact ⟨front, kind, rfl, order.eval_append_singleton front kind⟩

theorem opened_of_eval {head full : Phase} {bracket : TokenKind}
    (hs : head ≠ start ∧ full ≠ start) (hhead : ∀ p kind, next p kind = head → kind = bracket)
    (hfull : ∀ p kind, next p kind = full → p = head ∧ kind = .text)
    (h : order.eval w ∈ [head, full]) : Opened bracket w := by
  have hopened : ∀ {w}, order.eval w = head → ∃ front, w = front ++ [bracket] := by
    intro w hw
    obtain ⟨front, kind, rfl, hnext⟩ := eval_eq_next (hw ▸ hs.1)
    rw [hhead _ _ (hnext.symm.trans hw)]
    exact ⟨front, rfl⟩
  rcases List.mem_pair.1 h with hw | hw
  · obtain ⟨front, rfl⟩ := hopened hw
    exact ⟨front, [], rfl, Or.inl rfl⟩
  · obtain ⟨before, kind, rfl, hnext⟩ := eval_eq_next (hw ▸ hs.2)
    obtain ⟨hbefore, rfl⟩ := hfull _ _ (hnext.symm.trans hw)
    obtain ⟨front, rfl⟩ := hopened hbefore
    exact ⟨front, [.text], by simp, Or.inr rfl⟩

theorem opened_command (h : order.eval w ∈ [commandHead, commandText]) : Opened .commandStart w :=
  opened_of_eval (by decide) (by decide) (by decide) h

theorem opened_option (h : order.eval w ∈ [optionHead, optionText]) : Opened .optionStart w :=
  opened_of_eval (by decide) (by decide) (by decide) h

theorem targeted_of_eval (h : order.eval w = target) : Targeted w := by
  have hkinds : ∀ p kind, next p kind = target → kind = .identifier ∧ p = target ∨
      kind = .optionSep ∧ p ∈ [optionHead, optionText] := by decide
  induction w using List.reverseRecOn with
  | nil => cases h
  | append_singleton w kind ih =>
    rw [DFA.eval_append_singleton] at h
    rcases hkinds _ _ h with ⟨rfl, hw⟩ | ⟨rfl, hw⟩
    · obtain ⟨front, n, hfront, rfl⟩ := ih hw
      refine ⟨front, n + 1, hfront, ?_⟩
      rw [List.replicate_succ', List.append_assoc, List.cons_append]
    · exact ⟨w, 0, opened_option hw, rfl⟩

theorem next_of_accepts {before after : List TokenKind}
    (h : before ++ kind :: after ∈ order.accepts) :
    (order.eval before).next kind ≠ stuck ∧
      order.evalFrom ((order.eval before).next kind) after = ended := by
  have hends : order.evalFrom (order.eval before) (kind :: after) = ended := by
    rw [DFA.eval, ← DFA.evalFrom_of_append]
    exact h
  exact ⟨next_ne_stuck hends, hends⟩

theorem not_pair_infix (hpair : ∀ p, (next p kind).next kind = stuck) (h : w ∈ order.accepts) :
    ¬[kind, kind] <:+: w := by
  rintro ⟨before, after, rfl⟩
  rw [List.append_assoc] at h
  obtain ⟨-, hends⟩ := next_of_accepts h
  exact next_ne_stuck hends (hpair _)

theorem mem_of_getLast? (kinds : List TokenKind) {before after : List TokenKind}
    (hkinds : ∀ p last, (next p last).next kind ≠ stuck → last ∈ kinds)
    (h : before ++ kind :: after ∈ order.accepts) : ∀ last ∈ before.getLast?, last ∈ kinds := by
  intro last hlast
  obtain ⟨front, rfl⟩ := List.getLast?_eq_some_iff.1 hlast
  have hnext := (next_of_accepts h).1
  rw [DFA.eval_append_singleton] at hnext
  exact hkinds _ last hnext

theorem endOfInput_last (h : w ∈ order.accepts) :
    ∃ before : List TokenKind, w = before ++ [.endOfInput] ∧ .endOfInput ∉ before := by
  have hends : order.eval w = ended := h
  have hkinds : ∀ p kind, (next p kind = ended → kind = .endOfInput) ∧
      (next p .endOfInput = ended ∨ next p .endOfInput = stuck) := by decide
  obtain ⟨before, kind, rfl, hnext⟩ := eval_eq_next (w := w) (by rw [hends]; decide)
  obtain rfl := (hkinds _ kind).1 (hnext.symm.trans hends)
  refine ⟨before, rfl, fun hmem => ?_⟩
  obtain ⟨front, behind, rfl⟩ := List.append_of_mem hmem
  rw [List.append_assoc] at h
  obtain ⟨hlive, hbehind⟩ := next_of_accepts h
  rw [(hkinds _ .endOfInput).2.resolve_right hlive] at hbehind
  cases behind <;> cases eq_nil_of_ended hbehind

theorem orderly_of_accepts (h : w ∈ order.accepts) : Orderly w where
  text := not_pair_infix (by decide) h
  newline := not_pair_infix (by decide) h
  command := by
    rintro before after rfl
    have hnext : ∀ p, next p .commandStart = commandHead ∨ next p .commandStart = stuck := by decide
    obtain ⟨hlive, hbehind⟩ := next_of_accepts h
    rw [(hnext _).resolve_right hlive] at hbehind
    exact behind_commandStart hbehind
  option := by
    rintro before after rfl
    have hnext : ∀ p, next p .optionStart = optionHead ∨ next p .optionStart = stuck := by decide
    obtain ⟨hlive, hbehind⟩ := next_of_accepts h
    rw [(hnext _).resolve_right hlive] at hbehind
    exact behind_optionStart hbehind
  commandEnd := by
    rintro before after rfl
    have hfront : ∀ p, next p .commandEnd ≠ stuck → p ∈ [commandHead, commandText] := by decide
    exact opened_command (hfront _ (next_of_accepts h).1)
  optionSep := by
    rintro before after rfl
    have hfront : ∀ p, next p .optionSep ≠ stuck → p ∈ [optionHead, optionText] := by decide
    exact opened_option (hfront _ (next_of_accepts h).1)
  optionEnd := by
    rintro before after rfl
    have hfront : ∀ p, next p .optionEnd ≠ stuck →
        p ∈ [optionHead, optionText] ∨ p = target := by decide
    exact (hfront _ (next_of_accepts h).1).imp opened_option targeted_of_eval
  identifier := by
    rintro before after rfl
    have hfront : ∀ p, next p .identifier ≠ stuck → p = target := by decide
    exact targeted_of_eval (hfront _ (next_of_accepts h).1)
  shortcutMarker := by
    rintro before after rfl
    exact mem_of_getLast? _ (by decide) h
  indent := by
    rintro before after rfl
    have hfront : ∀ p, next p .indent ≠ stuck → p ≠ start := by decide
    obtain ⟨front, last, rfl, -⟩ := eval_eq_next (hfront _ (next_of_accepts h).1)
    have hlast := mem_of_getLast? [.newline] (by decide) h last List.getLast?_concat
    rw [List.getLast?_concat, List.mem_singleton.1 hlast]
  dedent := by
    rintro before after rfl
    have hfront : ∀ p, next p .dedent ≠ stuck → p ≠ start := by decide
    have hkinds : ∀ p last, (next p last).next .dedent ≠ stuck → last = .newline ∨
        last = .dedent ∨ (next p last).next .dedent = closing := by decide
    obtain ⟨hlive, hbehind⟩ := next_of_accepts h
    obtain ⟨front, last, rfl, hnext⟩ := eval_eq_next (hfront _ hlive)
    rw [hnext] at hlive hbehind
    rcases hkinds _ last hlive with rfl | rfl | hcloses
    · exact Or.inl List.getLast?_concat
    · exact Or.inr (Or.inl List.getLast?_concat)
    · rw [hcloses] at hbehind
      exact Or.inr (Or.inr (onlyCloses_of_closing hbehind))
  endOfInput := endOfInput_last h

end Phase

/-! ### Phases of a cursor -/

theorem Mode.Spans.drop {mode : Mode} {cs : List Char} {n : Nat} (h : mode.Spans cs n) :
    cs.drop n = [] ∨ mode.stopsText (cs.drop n) = true := by
  induction h with
  | done stops => exact stops
  | pair _ _ _ _ ih | one _ _ _ ih => exact ih

namespace Phase

def inside : List Phase := fresh ++ outside ++ bracketed

def full : List Phase := [prose, optionText, commandText]

def mode : Phase → Mode
  | optionHead => .option
  | optionText => .option
  | target => .destination
  | commandHead => .command
  | commandText => .command
  | _ => .base

theorem next_inside : ∀ p ∈ inside, ∀ kind ∈ p.mode.kinds, (kind = .shortcutMarker → p ∈ fresh) →
    (kind = .text → p ∉ full) → p.next kind ∈ inside ∧ (p.next kind).mode = p.mode.after kind ∧
      p.next kind ∉ fresh ∧ (p.next kind ∈ full → kind = .text) := by
  decide

theorem next_newline : ∀ p ∈ inside, p ∉ fresh → p.mode = .base → p.next .newline = lineBreak := by
  decide

theorem mem_endings : ∀ p ∈ inside, p ∉ fresh → p ∈ endings := by
  decide

theorem inside_of_fresh : ∀ p ∈ fresh, p ∈ inside ∧ p.mode = .base ∧ p ∉ full := by
  decide

theorem evalFrom_endsBody {p : Phase} {depth : Nat} {z : List Token} (hp : p ∈ endings)
    (h : EndsBody depth z) : order.evalFrom p (z.map Token.kind) = ended := by
  have hnext : ∀ p ∈ endings, p.next .dedent ∈ endings ∧ p.next .endOfInput = ended := by decide
  obtain ⟨hlevels, hlast⟩ := h
  rw [List.map_append, hlevels, List.map_singleton, hlast]
  clear hlevels
  induction depth generalizing p with
  | zero => exact (hnext p hp).2
  | succ depth ih => exact ih (hnext p hp).1

theorem evalFrom_markersOf (stack : List Nat) (width : Nat) :
    order.evalFrom lineBreak (markersOf stack width) ∈ fresh := by
  have hdedents : ∀ n, order.evalFrom shallower (.replicate n .dedent) = shallower := by
    intro n
    induction n with
    | zero => rfl
    | succ n ih => exact ih
  unfold markersOf
  split
  · decide
  · cases stack.length - (leave width stack).length with
    | zero => decide
    | succ n =>
      have hnext : order.evalFrom lineBreak (.replicate (n + 1) .dedent) = shallower := hdedents n
      rw [hnext]
      decide

end Phase

namespace Cursor
open Phase

variable {c : Cursor} {stack : List Nat} {p : Phase} {ts : List Token}

/-- The cursor stands inside of a line, in this phase. -/
structure In (c : Cursor) (p : Phase) : Prop where
  inside : p ∈ Phase.inside
  mode : c.mode = p.mode
  fresh : c.lineStart = true → p ∈ Phase.fresh
  filled : p ∈ Phase.fresh → lineAt c.rest ≠ []
  stops : p ∈ Phase.full → c.rest = [] ∨ c.mode.stopsText c.rest = true

theorem in_of_fresh {line : ContentLine} {below : List ContentLine} (h : c.AtLine line below)
    (hne : line.content ≠ []) (hp : p ∈ Phase.fresh) : c.In p := by
  obtain ⟨hinside, hmode, hfull⟩ := inside_of_fresh p hp
  refine ⟨hinside, h.mode.trans hmode.symm, fun _ => hp, fun _ => ?_, fun he => absurd he hfull⟩
  rw [h.content]
  exact hne

/-- A token of a line is one that its phase expects, and leads to the next phase. -/
theorem In.enter {kind : TokenKind} {n : Nat} (h : c.In p) (hne : c.rest ≠ [])
    (hfound : c.mode.tokenAt c.lineStart (lineAt c.rest) = some (kind, n)) (hk : kind ≠ .newline) :
    ((c.skip n).enter kind).In (p.next kind) := by
  obtain ⟨hkind, harrow, htext⟩ := Mode.tokenAt_mem_kinds hfound hk
  have hlength : kind = .text → n = c.mode.textLength c.rest := by
    rw [← Mode.textLength_lineAt]
    exact htext
  have hmore : kind = .text → p ∉ full := by
    intro he hp
    have hstop := (h.stops hp).resolve_left hne
    have hpos := Mode.tokenAt_pos _ _ _ _ _ hfound
    rw [hlength he, Mode.textLength_of_stopsText _ _ hstop] at hpos
    exact Nat.lt_irrefl 0 hpos
  rw [h.mode] at hkind
  obtain ⟨hinside, hmode, hfresh, hfull⟩ :=
    next_inside p h.inside kind hkind (fun he => h.fresh (harrow he)) hmore
  have hstart : ((c.skip n).enter kind).lineStart = false := by simp [Cursor.enter, hk]
  refine ⟨hinside, ?_, fun hl => ?_, fun hp => absurd hp hfresh, fun hp => ?_⟩
  · rw [hmode, ← h.mode]
    rfl
  · rw [hstart] at hl
    cases hl
  · obtain rfl := hfull hp
    obtain rfl := hlength rfl
    exact (Mode.spans_textLength c.mode c.rest).drop

/-- The automaton follows these tokens to their end, or the first of them to another place on a
line. -/
inductive Proceeds (p : Phase) : List Token → Prop
  | ends {ts : List Token} (last : order.evalFrom p (ts.map Token.kind) = ended) : Proceeds p ts
  | goesOn {d : Cursor} {stack : List Nat} {front rest : List Token} (some : front ≠ [])
      (ready : d.Ready stack) (phase : d.In (order.evalFrom p (front.map Token.kind)))
      (tokens : d.tokens? = .ok rest) : Proceeds p (front ++ rest)

theorem Ready.proceeds_last {number : Nat} (h : c.Ready stack) (hend : c.AtEnd number [])
    (hp : p ∈ endings) (hbreak : p.next .newline = lineBreak) (ht : c.tokens? = .ok ts) :
    Proceeds p ts := by
  obtain ⟨breaks, z, hz, hends, hbreaks⟩ := h.last hend
  cases ht.symm.trans hz
  refine .ends ?_
  rcases hbreaks with rfl | ⟨t, rfl, hk⟩
  · exact evalFrom_endsBody hp hends
  · rw [List.singleton_append, List.map_cons, hk]
    show order.evalFrom (p.next .newline) (z.map Token.kind) = ended
    rw [hbreak]
    exact evalFrom_endsBody (by decide) hends

theorem Ready.proceeds_next {number : Nat} {line : ContentLine} {below : List ContentLine}
    (h : c.Ready stack) (hend : c.AtEnd number (line :: below)) (hne : line.content ≠ [])
    (hbreak : p.next .newline = lineBreak) (ht : c.tokens? = .ok ts) : Proceeds p ts := by
  obtain ⟨newline, markers, d, hwalk, hk, hlevels, hready, hl⟩ := h.next hend
  rw [hwalk.tokens?] at ht
  obtain ⟨rest, hrest, rfl⟩ := exists_of_map_eq_ok ht
  refine .goesOn (List.cons_ne_nil _ _) hready (in_of_fresh hl hne ?_) hrest
  rw [List.map_cons, hk, hlevels]
  show order.evalFrom (p.next .newline) (markersOf stack line.width) ∈ Phase.fresh
  rw [hbreak]
  exact evalFrom_markersOf stack line.width

/-- Inside of a line comes a token of it, and behind it the next line or the end. -/
theorem Ready.proceeds (h : c.Ready stack) (hin : c.In p) (ht : c.tokens? = .ok ts) :
    Proceeds p ts := by
  by_cases hline : lineAt c.rest = []
  · have hfresh : p ∉ Phase.fresh := fun hp => hin.filled hp hline
    have hp : p ∈ endings := mem_endings p hin.inside hfresh
    rcases h.over_or_mode ht hline with hr | hmode
    · rw [tokens?_of_rest_nil h.started hr h.owed] at ht
      cases ht
      exact .ends (evalFrom_endsBody hp (endsBody_closing h.stack _))
    · have hbreak := next_newline p hin.inside hfresh (hin.mode.symm.trans hmode)
      have hend : c.AtEnd c.position.line _ := ⟨hmode, hline, rfl, rfl⟩
      cases hbelow : contentFrom (c.position.line + 1) (linesBelow c.rest) with
      | nil => exact h.proceeds_last (hbelow ▸ hend) hp hbreak ht
      | cons line below =>
        have hfilled : line.content ≠ [] := content_ne_nil_of_mem (hbelow ▸ List.mem_cons_self)
        exact h.proceeds_next (hbelow ▸ hend) hfilled hbreak ht
  · obtain ⟨kind, n, rest, hfound, hk, -, -, rfl, hrest, -⟩ := h.exists_token ht hline
    have hne : c.rest ≠ [] := fun hnil => hline (lineAt_eq_nil_iff.2 (Or.inl hnil))
    have hphase : ((c.skip n).enter kind).In (order.evalFrom p ([c.cut kind n].map Token.kind)) :=
      hin.enter hne hfound hk
    exact .goesOn (List.cons_ne_nil _ _) (h.enter kind n) hphase hrest

/-- From a phase on the automaton follows the tokens to the end of the body. -/
theorem Ready.evalFrom_eq_ended (h : c.Ready stack) (hin : c.In p) (ht : c.tokens? = .ok ts) :
    order.evalFrom p (ts.map Token.kind) = ended := by
  -- By the number of tokens, as a line break comes with its markers.
  induction hn : ts.length using Nat.strong_induction_on generalizing c stack p ts with
  | _ n ih =>
    subst hn
    cases h.proceeds hin ht with
    | ends last => exact last
    | @goesOn d stack front rest some ready phase tokens =>
      have hshort : rest.length < (front ++ rest).length := by
        have hpos := List.length_pos_iff.2 some
        rw [List.length_append]
        omega
      rw [List.map_append, DFA.evalFrom_of_append]
      exact ih rest.length hshort ready phase tokens rfl

end Cursor

theorem accepts_tokenize {body : List Char} {tokens : List Token}
    (h : Body.tokenize body = .ok tokens) : tokens.map Token.kind ∈ order.accepts := by
  obtain ⟨lead, rest, rfl, hrest, hlead⟩ := Cursor.tokens_of_tokenize h
  have hphase : order.eval (lead.map Token.kind) ∈ [Phase.start, .lineBreak] := by
    rcases hlead with rfl | rfl
    · exact List.mem_cons_self
    · exact List.mem_cons_of_mem _ List.mem_cons_self
  rw [DFA.mem_accepts, DFA.eval, List.map_append, DFA.evalFrom_of_append]
  show order.evalFrom (order.eval (lead.map Token.kind)) (rest.map Token.kind) = .ended
  cases hlines : contentLines body with
  | nil =>
    rw [Cursor.tokens?_of_rest_nil rfl (Cursor.rest_opened hlines) rfl] at hrest
    cases hrest
    have hends : ∀ p ∈ [Phase.start, .lineBreak], p.next .endOfInput = .ended := by decide
    exact hends _ hphase
  | cons line below =>
    obtain ⟨hready, hline⟩ := Cursor.ready_opened hlines
    have hfilled : line.content ≠ [] := content_ne_nil_of_mem (hlines ▸ List.mem_cons_self)
    have hfresh : ∀ p ∈ [Phase.start, .lineBreak], p ∈ Phase.fresh := by decide
    exact hready.evalFrom_eq_ended (Cursor.in_of_fresh hline hfilled (hfresh _ hphase)) hrest

/-- The kinds of the tokens of a body are a word of one regular language, in which texts and line
breaks stand alone, brackets are closed unless the body is over, arrows and markers stand at the
beginnings of lines, and the end comes last. -/
theorem kinds_orderly {body : List Char} {tokens : List Token}
    (h : Body.tokenize body = .ok tokens) :
    order.accepts.IsRegular ∧ tokens.map Token.kind ∈ order.accepts ∧
      Orderly (tokens.map Token.kind) :=
  ⟨order_isRegular, accepts_tokenize h, Phase.orderly_of_accepts (accepts_tokenize h)⟩

/-- An option with two identifiers, a command, and an option that is still open at the end. -/
def crossing : List Char :=
  "-> Go\n  [[Left|east gate]] <<wait>>\n  Look, [[Right".toList

theorem kinds_orderly_crossing :
    ∃ tokens, Body.tokenize crossing = .ok tokens ∧
      tokens.map Token.kind = [.shortcutMarker, .text, .newline, .indent, .optionStart, .text,
        .optionSep, .identifier, .identifier, .optionEnd, .text, .commandStart, .text, .commandEnd,
        .newline, .text, .optionStart, .text, .dedent, .endOfInput] ∧
      tokens.map Token.kind ∈ order.accepts ∧ Orderly (tokens.map Token.kind) := by
  have htokens : Body.tokenize crossing = .ok (Body.tokens crossing) := by cbv
  exact ⟨_, htokens, by cbv, (kinds_orderly htokens).2⟩

end Dialogue
