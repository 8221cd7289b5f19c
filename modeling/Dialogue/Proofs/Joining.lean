import Dialogue.Proofs.Fidelity
import Dialogue.Proofs.Indentation

/-!
# Bodies put together

Two bodies that can be read are read in one, with a line break between them, if
their first lines are equally wide. The statements of the first come out as they
did, and those of the second behind them on their new lines (`ofBody_append`). At
the seam the first line of the second body closes all levels of the first, as the
end of the first body had done.
-/

namespace Dialogue
open Statement (blockMapLines)

/-- The indentation of the first line that is not blank, `width` characters into a blank
line. -/
def widthFrom? (width : Nat) : List Char → Option Nat
  | '\n' :: cs => widthFrom? 0 cs
  | '\r' :: '\n' :: cs => widthFrom? 0 cs
  | c :: cs => if Text.isIndent c then widthFrom? (width + 1) cs else some width
  | [] => none

def Body.width? (body : List Char) : Option Nat := widthFrom? 0 body

theorem widthFrom?_eq (cs : List Char) (p : Position) (hp : 0 < p.column) :
    widthFrom? (p.column - 1) cs =
      if blankLength cs = cs.length then none
      else some ((p.advance (cs.take (blankLength cs))).column - 1) := by
  fun_induction blankLength cs generalizing p with
  | case1 cs ih =>
    rw [widthFrom?, List.take_succ_cons, Position.advance_cons, List.length_cons]
    have hnext := ih (p.next '\n') (by simp [Position.next])
    simpa [Position.next] using hnext
  | case2 cs ih =>
    rw [widthFrom?, List.take_succ_cons, List.take_succ_cons, Position.advance_cons,
      Position.advance_cons, List.length_cons, List.length_cons]
    have hnext := ih ((p.next '\r').next '\n') (by simp [Position.next])
    simpa [Position.next] using hnext
  | case3 c cs hn hr hindent ih =>
    have hc : c ≠ '\n' := by
      rintro rfl
      exact hn rfl
    rw [widthFrom?.eq_3 _ _ _ hn hr, if_pos hindent, List.take_succ_cons, Position.advance_cons,
      List.length_cons]
    have hnext := ih (p.next c) (by simp [Position.next, hc])
    have hcolumn : (p.next c).column - 1 = p.column - 1 + 1 := by
      simp only [Position.next, if_neg hc]
      omega
    rw [hcolumn] at hnext
    rw [hnext]
    simp only [Nat.add_right_cancel_iff]
  | case4 c cs hn hr hindent =>
    rw [widthFrom?.eq_3 _ _ _ hn hr, if_neg hindent, List.length_cons, if_neg (by omega)]
    rfl
  | case5 => rfl

namespace Cursor

def opened (body : List Char) : Cursor := ((ofBody body).skip (blankLength body)).start

theorem width?_eq (body : List Char) :
    Body.width? body =
      if blankLength body = body.length then none else some (opened body).base :=
  widthFrom?_eq body .start (by decide)

/-- Blank lines that a body begins with are its first token. -/
theorem tokens?_or_walks_opened (body : List Char) :
    (ofBody body).tokens? = (opened body).tokens? ∨
      Walks (ofBody body) [(ofBody body).cut .newline (blankLength body)] (opened body) := by
  by_cases hb : blankLength body = 0
  · have hskip : (ofBody body).skip 0 = ofBody body := rfl
    refine .inl ?_
    rw [opened, hb, hskip, Statement.tokens?_start (c := ofBody body) hb rfl]
  · have hlead : (ofBody body).leadLength ≠ 0 := hb
    have hstep : (ofBody body).step =
        ((ofBody body).cut .newline (blankLength body), opened body) := if_pos hlead
    exact .inr (.cons hstep rfl (.nil _))

theorem leads_opened (body : List Char) (a : Assembly) :
    Place.Leads ⟨.ofBody body, a⟩ ⟨opened body, a⟩ := by
  rcases tokens?_or_walks_opened body with htokens | hwalk
  · intro e
    unfold Place.result
    rw [htokens]
  · exact Place.leads_of_walks hwalk fun e rest _ => Assembly.read_newline e rest a rfl

theorem underway_opened {body : List Char} (h : body.getLast? ≠ some '\r') :
    Underway (opened body) := by
  refine ⟨rfl, owesLevels_ofBody body, ?_⟩
  show (body.drop (blankLength body)).getLast? ≠ some '\r'
  rw [List.getLast?_drop]
  split
  · nofun
  · exact h

theorem opened_place (body : List Char) :
    (opened body).position.advance (opened body).rest = Position.start.advance body := by
  show (Position.start.advance (body.take (blankLength body))).advance
    (body.drop (blankLength body)) = _
  rw [← Position.advance_append, List.take_append_drop]

theorem opens_opened (body : List Char) : (opened body).Opens 0 := (opens_iff rfl).2 rfl

end Cursor

namespace Position

theorem advance_line (p : Position) (cs : List Char) :
    (p.advance cs).line = p.line + cs.count '\n' := by
  induction cs generalizing p with
  | nil => rfl
  | cons c cs ih =>
    rw [advance_cons, ih, List.count_cons]
    by_cases hc : c = '\n'
    · simp only [next, hc, if_true, beq_self_eq_true]
      omega
    · simp [next, hc]

theorem next_newline (a : List Char) :
    (start.advance a).next '\n' = start.below (1 + a.count '\n') := by
  unfold next below
  rw [if_pos rfl, advance_line, Nat.add_assoc, Nat.add_comm (a.count '\n')]
  rfl

end Position

namespace Cursor

variable {a b : List Char} {d : Cursor}

theorem skip_newline (place : d.position.advance d.rest = Position.start.advance a) :
    (d.extend b).skip (d.rest.length + (blankLength b + 1)) =
      { d with
        rest := (opened b).rest
        position := (opened b).position.below (1 + a.count '\n') } := by
  have hdrop : (d.rest ++ '\n' :: b).drop (d.rest.length + (blankLength b + 1)) =
      b.drop (blankLength b) := by
    rw [List.drop_length_add_append, List.drop_succ_cons]
  have htake : (d.rest ++ '\n' :: b).take (d.rest.length + (blankLength b + 1)) =
      d.rest ++ '\n' :: b.take (blankLength b) := by
    rw [List.take_length_add_append, List.take_succ_cons]
  unfold skip extend
  simp only
  rw [hdrop, htake, Position.advance_append, Position.advance_cons, place, Position.next_newline,
    Position.advance_below]
  rfl

theorem blankLength_seam (hblank : blankLength a = a.length) (hlast : a.getLast? ≠ some '\r') :
    blankLength (a ++ '\n' :: b) = a.length + (blankLength b + 1) := by
  rw [blankLength_append_newline hlast, if_pos hblank]
  omega

theorem opened_append_of_blank (hblank : blankLength a = a.length)
    (hlast : a.getLast? ≠ some '\r') :
    opened (a ++ '\n' :: b) = (opened b).below (1 + a.count '\n') := by
  have hskip := skip_newline (d := ofBody a) (a := a) (b := b) rfl
  unfold opened
  rw [blankLength_seam hblank hlast]
  exact congrArg start hskip

theorem opened_append (hcontent : blankLength a ≠ a.length) (hlast : a.getLast? ≠ some '\r') :
    opened (a ++ '\n' :: b) = (opened a).extend b := by
  have hlength : blankLength (a ++ '\n' :: b) = blankLength a := by
    rw [blankLength_append_newline hlast, if_neg hcontent]
  unfold opened
  rw [hlength]
  exact congrArg start (skip_extend (c := ofBody a) (Mode.blankLength_le a))

/-! ### The seam -/

/-- At a line break a body goes on in prose only. -/
theorem tokenAt_lineBreak (mode : Mode) (lineStart : Bool) {cs : List Char}
    (h : atLineBreak cs = true) :
    mode.tokenAt lineStart cs = if mode = .base then some (.newline, blankLength cs) else none := by
  have htext : ∀ mode : Mode, mode.textLength cs = 0 := fun mode =>
    Mode.textLength_of_stopsText mode cs (by simp [Mode.stopsText, h])
  unfold atLineBreak at h
  split at h
  · cases mode <;> simp [Mode.tokenAt, Mode.atArrow, Mode.delimiter?, atLineBreak, htext, Mode.run,
      Mode.destinationLength, indentLength, Text.isIndent, Mode.isDestinationChar]
  · cases mode <;> simp [Mode.tokenAt, Mode.atArrow, Mode.delimiter?, atLineBreak, htext, Mode.run,
      Mode.destinationLength, indentLength, Text.isIndent, Mode.isDestinationChar]
  · cases h

theorem stepContent_lineBreak (hm : d.mode = .base) (h : atLineBreak d.rest = true) :
    d.stepContent = (d.cut .newline (blankLength d.rest),
      ((d.skip (blankLength d.rest)).enter .newline).measure) := by
  unfold stepContent
  rw [hm, tokenAt_lineBreak _ _ h, if_pos rfl]
  simp only [if_true]

theorem mode_of_lineBreak {z : List Token} (hstep : d.step = d.stepContent)
    (h : atLineBreak d.rest = true) (ht : d.tokens? = .ok z) : d.mode = .base := by
  by_contra hm
  have hinvalid : d.step.1.kind = .invalid := by
    rw [hstep, stepContent, tokenAt_lineBreak _ _ h, if_neg hm]
    rfl
  rw [Cursor.tokens?, dif_neg (by rw [hinvalid]; decide), if_pos hinvalid] at ht
  cases ht

/-- The tokens behind a seam close all levels. -/
theorem Seam.tokens (h : Seam d) (hu : Underway d) {z : List Token} (ht : d.tokens? = .ok z) :
    ∃ lead p, z = lead ++ (closing d.levels.length p ++ [⟨.endOfInput, [], p⟩]) ∧
      (lead = [] ∨ ∃ t : Token, lead = [t] ∧ t.kind = .newline) := by
  by_cases hr : d.rest = []
  · rw [tokens?_of_rest_nil hu.started hr h.owed] at ht
    cases ht
    exact ⟨[], d.position, rfl, Or.inl rfl⟩
  · have hbreak := h.breaks.resolve_left hr
    have hstep : d.step = d.stepContent := by rw [step_of_started hu.started h.owed, if_neg hr]
    have hmode : d.mode = .base := mode_of_lineBreak hstep hbreak ht
    rw [stepContent_lineBreak hmode hbreak, h.blank] at hstep
    have hrest : ((d.skip d.rest.length).enter .newline).rest = [] := List.drop_length
    have hmeasure : ((d.skip d.rest.length).enter .newline).measure =
        (d.skip d.rest.length).enter .newline := if_pos hrest
    rw [hmeasure] at hstep
    have hend := tokens?_of_rest_nil (c := (d.skip d.rest.length).enter .newline) hu.started hrest
      h.owed
    have hwalk : Walks d [d.cut .newline d.rest.length] _ := .cons hstep rfl (.nil _)
    rw [hwalk.tokens?, hend] at ht
    cases ht
    exact ⟨_, _, rfl, Or.inr ⟨_, rfl, rfl⟩⟩

theorem Seam.atLineBreak_extend (h : Seam d) (hu : Underway d) :
    atLineBreak (d.extend b).rest = true := by
  have hlast := hu.last
  have hbreaks := h.breaks
  unfold extend
  cases hrest : d.rest with
  | nil => rfl
  | cons c cs =>
    rw [hrest] at hlast hbreaks
    rw [atLineBreak_append_newline hlast]
    exact hbreaks.resolve_left (List.cons_ne_nil c cs)

theorem Seam.tokens?_extend (h : Seam d) (hu : Underway d) (hm : d.mode = .base)
    (place : d.position.advance d.rest = Position.start.advance a) (habove : d.Above)
    (hbase : (opened b).rest = [] ∨ d.base = (opened b).base) {ts : List Token}
    (ht : (opened b).tokens? = .ok ts) :
    ∃ t p, t.kind = .newline ∧ (d.extend b).tokens? =
      .ok (t :: (closing d.levels.length p ++ ts.map (Token.below (1 + a.count '\n')))) := by
  have hne : (d.extend b).rest ≠ [] := by simp [extend]
  have hbreak : atLineBreak (d.extend b).rest = true := h.atLineBreak_extend hu
  have hlength : blankLength (d.extend b).rest = d.rest.length + (blankLength b + 1) :=
    blankLength_seam h.blank hu.last
  have hstep : (d.extend b).step = (d.extend b).stepContent := by
    rw [step_of_started (c := d.extend b) hu.started h.owed, if_neg hne]
  -- Behind the line break the cursor is that of the second body, but for what it has learnt.
  have hsame : (((d.extend b).skip (d.rest.length + (blankLength b + 1))).enter .newline) =
      { (opened b).below (1 + a.count '\n') with base := d.base, levels := d.levels } := by
    rw [skip_newline place]
    unfold enter
    simp only [hm, h.owed, hu.started]
    rfl
  rw [stepContent_lineBreak (d := d.extend b) hm hbreak, hlength, hsame] at hstep
  have hbehind := tokens?_measure (c := (opened b).below (1 + a.count '\n')) rfl rfl rfl
    (hbase.imp_right fun hd => ⟨hd, rfl⟩) habove (tokens?_below _ _ ht)
  have hwalk : Walks (d.extend b) [(d.extend b).cut .newline (d.rest.length + (blankLength b + 1))]
      _ := .cons hstep rfl (.nil _)
  rw [hwalk.tokens?, hbehind]
  exact ⟨_, _, rfl, rfl⟩

variable {c : Cursor} {ts : List Token}

theorem kind_ne_invalid (h : c.tokens? = .ok ts) : ∀ t ∈ c.tokens, t.kind ≠ .invalid := by
  intro t ht hi
  obtain ⟨mode, herror⟩ := tokens?_eq_error c t ht hi
  rw [herror] at h
  cases h

theorem tokens_of_tokens? (h : c.tokens? = .ok ts) : c.tokens = ts :=
  Except.ok.inj ((tokens?_eq_ok c (kind_ne_invalid h)).symm.trans h)

theorem tokens?_eq_append_last (h : c.tokens? = .ok ts) :
    ∃ before last, ts = before ++ [last] ∧ last.kind = .endOfInput ∧
      ∀ t ∈ before, t.kind ≠ .endOfInput := by
  have hvalid := kind_ne_invalid h
  obtain rfl := tokens_of_tokens? h
  obtain ⟨before, last, htokens, hlast, hbefore⟩ := tokens_eq_append_last c
  refine ⟨before, last, htokens, ?_, fun t ht hk => ?_⟩
  · have hne := hvalid last (by rw [htokens]; simp)
    simpa [TokenKind.isFinal, hne] using hlast
  · have hmore := hbefore t ht
    rw [hk] at hmore
    cases hmore

theorem Walks.kind_ne_endOfInput {d : Cursor} (h : Walks c ts d) :
    ∀ t ∈ ts, t.kind ≠ .endOfInput := by
  induction h with
  | nil => nofun
  | cons first more _ ih =>
    intro t ht
    rcases List.mem_cons.1 ht with rfl | ht
    · intro hk
      rw [hk] at more
      cases more
    · exact ih t ht

theorem head_ne_indent (ho : c.owed = []) (h : c.tokens? = .ok ts) :
    ∀ t ∈ ts.head?, t.kind ≠ .indent := by
  intro t ht
  rw [head?_tokens? h] at ht
  cases ht
  exact (steps_step c).kind_ne_indent (by rw [ho]; nofun)

end Cursor

/-! ### Statements -/

open Cursor

/-- The statements of a body are read on other lines and behind others. -/
theorem Assembly.read_relocated {e : BodyEnd} {c : Cursor} {ts : List Token}
    {found : List Statement} (ht : c.tokens? = .ok ts) (h : ({} : Assembly).read e ts = .ok found)
    (f : Nat → Nat) (first : List Statement) (e' : BodyEnd) :
    (⟨first, [], []⟩ : Assembly).read e' (ts.map (Token.mapLine f)) =
      .ok (first ++ blockMapLines f found) := by
  obtain ⟨before, last, rfl, hlast, hbefore⟩ := tokens?_eq_append_last ht
  obtain ⟨b, hb⟩ := exists_reads (.last hlast) hbefore h
  have hfinish : finish (e.misfit .endif [last]) b.block b.around = .ok found := by
    rw [hb.read_self (.last hlast) e, read, if_pos hlast] at h
    exact h
  have hstart : (⟨first, [], []⟩ : Assembly) = ({} : Assembly).relocate f first := by
    simp [relocate, lead, relocateAround, Statement.blockMapLines]
  have hmoved : (last.mapLine f).kind = .endOfInput := hlast
  rw [hstart, List.map_append, List.map_singleton, hb.read f first e' _ (.last hmoved), read,
    if_pos hmoved]
  exact finish_relocate hfinish

theorem breaks_closing {t : Token} {n : Nat} {p : Position} {rest : List Token}
    (hk : t.kind = .newline) (hrest : ∀ u ∈ rest.head?, u.kind ≠ .indent) :
    Breaks (t :: (closing n p ++ rest)) := by
  refine .newline hk fun u hu => ?_
  cases n with
  | zero => exact hrest u hu
  | succ n =>
    cases hu
    simp

theorem breaks_last {lead : List Token} {n : Nat} {p : Position}
    (h : lead = [] ∨ ∃ t : Token, lead = [t] ∧ t.kind = .newline) :
    Breaks (lead ++ (closing n p ++ [⟨.endOfInput, [], p⟩])) := by
  rcases h with rfl | ⟨t, rfl, hk⟩
  · cases n with
    | zero => exact .last rfl
    | succ n => exact .dedent rfl
  · exact breaks_closing hk (by simp)

theorem breaks_joined {t : Token} {ts : List Token} {b : List Char} {n k : Nat} {p : Position}
    (hk : t.kind = .newline) (ht : (opened b).tokens? = .ok ts) :
    Breaks (t :: (closing n p ++ ts.map (Token.below k))) := by
  refine breaks_closing hk fun u hu => ?_
  rw [List.head?_map] at hu
  obtain ⟨v, hv, rfl⟩ := Option.mem_map.1 hu
  exact head_ne_indent rfl ht v hv

/-- At the seam the statements of a body are complete but for the levels that are open. -/
theorem Cursor.Seam.reads {c d : Cursor} {x z : List Token} {e : BodyEnd} {A : List Statement}
    (h : Seam d) (hu : Underway c) (hd : Underway d) (hc : c.Opens 0) (hw : Walks c x d)
    (hz : d.tokens? = .ok z) (hread : ({} : Assembly).read e (x ++ z) = .ok A) :
    ∃ b, Assembly.Reads x {} b ∧ ∀ e' p rest,
      b.read e' (closing d.levels.length p ++ rest) = (⟨A, [], []⟩ : Assembly).read e' rest := by
  have hcloses : Closes 0 (x ++ z) := by
    refine closes_tokens? hu.owes hc ?_
    rw [hw.tokens?, hz]
    rfl
  obtain ⟨lead, p, rfl, hlead⟩ := h.tokens hd hz
  have hbreaks : Breaks (lead ++ (closing d.levels.length p ++ [⟨.endOfInput, [], p⟩])) :=
    breaks_last hlead
  obtain ⟨b, hb⟩ := Assembly.exists_reads hbreaks hw.kind_ne_endOfInput hread
  rw [hb.read_self hbreaks] at hread
  replace hcloses := hb.closes _ hcloses
  -- A line break in front of the markers changes nothing.
  have hlast : b.read e (closing d.levels.length p ++ [⟨.endOfInput, [], p⟩]) = .ok A ∧
      Closes b.levels.length (closing d.levels.length p ++ [⟨.endOfInput, [], p⟩]) := by
    rcases hlead with rfl | ⟨t, rfl, hk⟩
    · exact ⟨hread, hcloses⟩
    · refine ⟨(Assembly.read_newline e _ b hk).symm.trans hread, closes_cons ?_ ?_ hcloses⟩
      · rw [hk]
        decide
      · rw [hk]
        decide
  refine ⟨b, hb, fun e' p' rest => ?_⟩
  exact Assembly.read_closing (hb.matched rfl) (closes_closing rfl hlast.2) rfl rfl hlast.1 rfl e' rest

namespace Statement

variable {a b : List Char} {A B : List Statement}

theorem tokens_of_ofBody (h : ofBody a = .ok A) :
    ∃ ts e, (opened a).tokens? = .ok ts ∧ ({} : Assembly).read e ts = .ok A := by
  obtain ⟨e, he⟩ := result_of_ofBody h
  rw [leads_opened a {} e] at he
  unfold Place.result at he
  cases ht : (opened a).tokens? with
  | error err =>
    rw [ht] at he
    cases he
  | ok ts =>
    rw [ht] at he
    refine ⟨ts, e, rfl, ?_⟩
    cases hr : ({} : Assembly).read e ts with
    | error err => simp [hr, Except.toOption] at he
    | ok found => simpa [hr, Except.toOption] using he

theorem ofBody_of_tokens {ts : List Token} (ht : (opened a).tokens? = .ok ts)
    (h : ∀ e, ({} : Assembly).read e ts = .ok A) : ofBody a = .ok A := by
  refine ofBody_of_result fun e => ?_
  rw [leads_opened a {} e]
  unfold Place.result
  rw [ht]
  simp only
  rw [h e]
  rfl

theorem ofBody_of_blank (hblank : blankLength a = a.length) (h : ofBody a = .ok A) : A = [] := by
  obtain ⟨ts, e, ht, hread⟩ := tokens_of_ofBody h
  have hrest : (opened a).rest = [] := by
    show a.drop (blankLength a) = []
    rw [hblank, List.drop_length]
  rw [tokens?_of_rest_nil rfl hrest rfl] at ht
  cases ht
  exact (Assembly.mk.inj (Assembly.eq_of_read_last (a := {}) rfl rfl rfl hread)).1.symm

theorem base_of_width? (ha : blankLength a ≠ a.length)
    (h : Body.width? a = Body.width? b ∨ Body.width? a = none ∨ Body.width? b = none) :
    (opened b).rest = [] ∨ (opened a).base = (opened b).base := by
  rw [width?_eq, width?_eq, if_neg ha] at h
  by_cases hb : blankLength b = b.length
  · left
    show b.drop (blankLength b) = []
    rw [hb, List.drop_length]
  · right
    rw [if_neg hb] at h
    simpa using h

theorem ofBody_append_of_blank {tb : List Token} (hblank : blankLength a = a.length)
    (hlast : a.getLast? ≠ some '\r') (htb : (opened b).tokens? = .ok tb)
    (hread : ∀ e, ({} : Assembly).read e (tb.map (Token.below (1 + a.count '\n'))) = .ok B) :
    ofBody (a ++ '\n' :: b) = .ok B := by
  refine ofBody_of_tokens ?_ hread
  rw [opened_append_of_blank hblank hlast]
  exact tokens?_below _ _ htb

theorem ofBody_append_of_content {tb : List Token} (ha : ofBody a = .ok A)
    (hcontent : blankLength a ≠ a.length) (hlast : a.getLast? ≠ some '\r')
    (hbase : (opened b).rest = [] ∨ (opened a).base = (opened b).base)
    (htb : (opened b).tokens? = .ok tb)
    (hread : ∀ e, (⟨A, [], []⟩ : Assembly).read e (tb.map (Token.below (1 + a.count '\n'))) =
      .ok B) : ofBody (a ++ '\n' :: b) = .ok B := by
  obtain ⟨ta, ea, hta, hA⟩ := tokens_of_ofBody ha
  have hu : Underway (opened a) := underway_opened hlast
  obtain ⟨x, d, hwalk, hd, hseam, hextend⟩ := exists_seam hu hta
  obtain ⟨z, hz, rfl⟩ := exists_of_map_eq_ok (hwalk.tokens?.symm.trans hta)
  obtain ⟨found, hreads, hclosing⟩ := hseam.reads hu hd (opens_opened a) hwalk hz hA
  have hfollows := hwalk.follows hu
  have hmode : d.mode = .base := hfollows.mode.trans hreads.mode
  have hplace := hfollows.place.trans (opened_place a)
  rw [← hfollows.base] at hbase
  obtain ⟨t, p, hk, htokens⟩ :=
    hseam.tokens?_extend hd hmode hplace (hfollows.above nofun) hbase htb
  have hjoined : (opened (a ++ '\n' :: b)).tokens? = .ok (x ++ t ::
      (closing d.levels.length p ++ tb.map (Token.below (1 + a.count '\n')))) := by
    rw [opened_append hcontent hlast, (hextend b).tokens?, htokens]
    rfl
  refine ofBody_of_tokens hjoined fun e => ?_
  calc ({} : Assembly).read e (x ++ t :: (closing d.levels.length p ++ tb.map (Token.below _)))
    _ = found.read e (t :: (closing d.levels.length p ++ tb.map (Token.below _))) :=
      hreads.read_self (breaks_joined hk htb) e
    _ = found.read e (closing d.levels.length p ++ tb.map (Token.below _)) :=
      Assembly.read_newline e _ found hk
    _ = (⟨A, [], []⟩ : Assembly).read e (tb.map (Token.below _)) := hclosing e p _
    _ = .ok B := hread e

/-- Bodies whose first lines are equally wide can be joined by a line break: the statements of the
second follow those of the first, on the lines where they then stand. -/
theorem ofBody_append (ha : ofBody a = .ok A) (hb : ofBody b = .ok B)
    (hlast : a.getLast? ≠ some '\r')
    (hwidth : Body.width? a = Body.width? b ∨ Body.width? a = none ∨ Body.width? b = none) :
    ofBody (a ++ '\n' :: b) = .ok (A ++ blockMapLines (· + (1 + a.count '\n')) B) := by
  obtain ⟨tb, eb, htb, hread⟩ := tokens_of_ofBody hb
  have hmoved := Assembly.read_relocated htb hread (· + (1 + a.count '\n')) A
  by_cases hblank : blankLength a = a.length
  · rw [ofBody_of_blank hblank ha] at hmoved ⊢
    exact ofBody_append_of_blank hblank hlast htb hmoved
  · exact ofBody_append_of_content ha hblank hlast (base_of_width? hblank hwidth) htb hmoved

/-- A body that ends two levels deep, with a backslash in front of what follows. -/
def evening : List Char := "  -> Stay <<if $late>>\n    Sit down.\n      Wait\\".toList

def morning : List Char :=
  "\n  <<if $up>>\n    Coffee.\n  <<else>>\n  <<endif>>\n  -> Leave\n   [[Out|Street]]".toList

theorem ofBody_append_evening_morning :
    Body.width? evening = some 2 ∧ Body.width? morning = some 2 ∧
      ofBody (evening ++ '\n' :: morning) = .ok
        [.shortcut 1 "Stay" (some (.var 1 "late")) [.text 2 "Sit down.", .text 3 "Wait\\"],
          .conditional 5 [.mk 5 (some (.var 5 "up")) [.text 6 "Coffee."], .mk 7 none []],
          .shortcut 9 "Leave" none [.option 10 "Out" "Street" none]] := by
  have hevening : ofBody evening = .ok
      [.shortcut 1 "Stay" (some (.var 1 "late")) [.text 2 "Sit down.", .text 3 "Wait\\"]] := by cbv
  have hmorning : ofBody morning = .ok
      [.conditional 2 [.mk 2 (some (.var 2 "up")) [.text 3 "Coffee."], .mk 4 none []],
        .shortcut 6 "Leave" none [.option 7 "Out" "Street" none]] := by cbv
  exact ⟨by decide, by decide, ofBody_append hevening hmorning (by decide) (Or.inl (by decide))⟩

end Statement

end Dialogue
