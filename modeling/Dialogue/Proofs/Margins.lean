import Dialogue.Proofs.Recasting

/-!
# The margins of a body

A body is cut into its lines and the line breaks behind them (`Body.lines`), and lines
are changed one by one (`Body.revise`). Indenting every content line anew keeps all
statements, as long as the widths stay in order (`ofBody_reindent`). Blanks at the ends
of lines keep them if and only if none comes behind the condition of an option
(`ofBody_pad_iff`).
-/

namespace Dialogue

namespace Body

/-- The lines of a body, each with the line break that ends it. -/
def lines : List Char → List (List Char × List Char)
  | '\n' :: cs => ([], ['\n']) :: lines cs
  | '\r' :: '\n' :: cs => ([], ['\r', '\n']) :: lines cs
  | c :: cs => (lines cs).modifyHead fun line => (c :: line.1, line.2)
  | [] => [([], [])]

def ofLines (ls : List (List Char × List Char)) : List Char :=
  ls.flatMap fun line => line.1 ++ line.2

def reviseFrom (change : Nat → List Char → List Char) :
    Nat → List (List Char × List Char) → List (List Char × List Char)
  | _, [] => []
  | number, (text, ending) :: below =>
    (change number text, ending) :: reviseFrom change (number + 1) below

/-- The body with the text of every line changed, and the same line breaks. -/
def revise (change : Nat → List Char → List Char) (body : List Char) : List Char :=
  ofLines (reviseFrom change 1 (lines body))

/-- Lines that are told apart by their line breaks. -/
inductive Lined : List (List Char × List Char) → Prop
  | last {text : List Char} (inner : '\n' ∉ text) : Lined [(text, [])]
  | feed {text : List Char} {below : List (List Char × List Char)} (inner : '\n' ∉ text)
      (bare : text.getLast? ≠ some '\r') (rest : Lined below) : Lined ((text, ['\n']) :: below)
  | both {text : List Char} {below : List (List Char × List Char)} (inner : '\n' ∉ text)
      (rest : Lined below) : Lined ((text, ['\r', '\n']) :: below)

theorem ofLines_cons (line : List Char × List Char) (ls : List (List Char × List Char)) :
    ofLines (line :: ls) = line.1 ++ line.2 ++ ofLines ls := List.flatMap_cons

theorem lines_ne_nil (cs : List Char) : lines cs ≠ [] := by
  fun_induction lines cs with
  | case1 | case2 | case4 => simp
  | case3 c cs _ _ ih => simpa using ih

theorem ofLines_lines (cs : List Char) : ofLines (lines cs) = cs := by
  fun_induction lines cs with
  | case1 cs ih | case2 cs ih => rw [ofLines_cons, ih]; rfl
  | case3 c cs _ _ ih =>
    obtain ⟨line, below, hlines⟩ := List.exists_cons_of_ne_nil (lines_ne_nil cs)
    rw [hlines, ofLines_cons] at ih
    rw [hlines, List.modifyHead_cons, ofLines_cons, ← ih]
    rfl
  | case4 => rfl

theorem lined_lines (cs : List Char) : Lined (lines cs) := by
  fun_induction lines cs with
  | case1 cs ih => exact .feed (List.not_mem_nil) (by simp) ih
  | case2 cs ih => exact .both (List.not_mem_nil) ih
  | case3 c cs hn hr ih =>
    have hjoined := ofLines_lines cs
    have hc : '\n' ≠ c := fun heq => hn heq.symm
    cases hlines : lines cs with
    | nil => exact absurd hlines (lines_ne_nil cs)
    | cons line below =>
      rw [hlines] at ih hjoined
      rw [List.modifyHead_cons]
      cases ih with
      | last inner => exact .last (List.not_mem_cons_of_ne_of_not_mem hc inner)
      | both inner rest => exact .both (List.not_mem_cons_of_ne_of_not_mem hc inner) rest
      | @feed text _ inner bare rest =>
        refine .feed (List.not_mem_cons_of_ne_of_not_mem hc inner) (fun hlast => ?_) rest
        cases text with
        | nil =>
          -- The carriage return would belong to the line break.
          cases hlast
          exact hr _ rfl hjoined.symm
        | cons d text => exact bare (by rw [← hlast, List.getLast?_cons_cons])
  | case4 => exact .last List.not_mem_nil

theorem lineAt_append {text rest : List Char} (hinner : '\n' ∉ text)
    (hbreak : rest = [] ∨ atLineBreak rest = true)
    (hbare : rest.head? = some '\n' → text.getLast? ≠ some '\r') :
    lineAt (text ++ rest) = text := by
  induction text with
  | nil => exact lineAt_eq_nil_iff.2 hbreak
  | cons c text ih =>
    obtain ⟨hc, hinner⟩ := List.ne_and_not_mem_of_not_mem_cons hinner
    have hgoes : atLineBreak (c :: (text ++ rest)) = false := by
      rw [Mode.atLineBreak_cons, beq_false_of_ne hc.symm, Bool.false_or, Bool.and_eq_false_imp]
      intro hreturn
      cases text with
      | nil =>
        refine beq_false_of_ne fun hhead => hbare hhead ?_
        rw [beq_iff_eq.1 hreturn]
        rfl
      | cons d text =>
        refine beq_false_of_ne fun hhead => hinner ?_
        cases hhead
        exact List.mem_cons_self
    rw [List.cons_append, lineAt_cons hgoes, ih hinner]
    intro hhead hlast
    refine hbare hhead ?_
    cases text with
    | nil => cases hlast
    | cons d text => rw [List.getLast?_cons_cons, hlast]

theorem texts_ofLines {ls : List (List Char × List Char)} (h : Lined ls) :
    lineAt (ofLines ls) :: linesBelow (ofLines ls) = ls.map Prod.fst := by
  induction h with
  | @last text inner =>
    have hone : ofLines [(text, [])] = text ++ [] := by simp [ofLines]
    rw [hone, lineAt_append inner (Or.inl rfl) nofun, linesBelow_append inner]
    rfl
  | @feed text below inner bare _ ih =>
    have hcons : ofLines ((text, ['\n']) :: below) = text ++ '\n' :: ofLines below := by
      simp [ofLines_cons]
    rw [hcons, lineAt_append inner (Or.inr rfl) fun _ => bare, linesBelow_append inner,
      List.map_cons, ← ih]
    rfl
  | @both text below inner _ ih =>
    have hcons : ofLines ((text, ['\r', '\n']) :: below) =
        text ++ '\r' :: '\n' :: ofLines below := by
      simp [ofLines_cons]
    rw [hcons, lineAt_append inner (Or.inr rfl) (by simp), linesBelow_append inner, List.map_cons,
      ← ih]
    rfl

theorem texts_lines (body : List Char) :
    lineAt body :: linesBelow body = (lines body).map Prod.fst := by
  have htexts := texts_ofLines (lined_lines body)
  rwa [ofLines_lines] at htexts

/-- A change that leaves the line breaks what they are. -/
structure Tame (change : Nat → List Char → List Char) : Prop where
  inner : ∀ {number text}, '\n' ∉ text → '\n' ∉ change number text
  bare : ∀ {number text}, text.getLast? ≠ some '\r' → (change number text).getLast? ≠ some '\r'

theorem Tame.lined {change : Nat → List Char → List Char} (h : Tame change)
    {ls : List (List Char × List Char)} (hls : Lined ls) (number : Nat) :
    Lined (reviseFrom change number ls) := by
  induction hls generalizing number with
  | last inner => exact .last (h.inner inner)
  | feed inner bare _ ih => exact .feed (h.inner inner) (h.bare bare) (ih (number + 1))
  | both inner _ ih => exact .both (h.inner inner) (ih (number + 1))

/-- What is done to every line is done to the content lines. -/
theorem contentLines_revise {change : Nat → List Char → List Char} (h : Tame change)
    {edit : ContentLine → ContentLine}
    (hline : ∀ number text, contentLine? number 0 (change number text) =
      (contentLine? number 0 text).map edit) (body : List Char) :
    contentLines (revise change body) = (contentLines body).map edit := by
  have hfrom : ∀ (ls : List (List Char × List Char)) (number : Nat),
      contentFrom number ((reviseFrom change number ls).map Prod.fst) =
        (contentFrom number (ls.map Prod.fst)).map edit := by
    intro ls
    induction ls with
    | nil => exact fun _ => rfl
    | cons line ls ih =>
      intro number
      have hfirst : (contentLine? number 0 (change number line.1)).toList =
          (contentLine? number 0 line.1).toList.map edit := by
        rw [hline, Option.toList_map]
      simp only [reviseFrom, List.map_cons, contentFrom, List.map_append, hfirst, ih]
  unfold contentLines revise
  rw [texts_ofLines (h.lined (lined_lines body) 1), hfrom, ← texts_lines]

end Body

theorem blanks_or_content (text : List Char) :
    Blanks text ∨ ∃ lead c rest, text = lead ++ c :: rest ∧ Blanks lead ∧
      Text.isIndent c = false := by
  induction text with
  | nil => exact Or.inl nofun
  | cons c text ih =>
    cases hc : Text.isIndent c with
    | false => exact Or.inr ⟨[], c, text, rfl, nofun, hc⟩
    | true =>
      rcases ih with hblank | ⟨lead, d, rest, rfl, hlead, hd⟩
      · exact Or.inl (List.forall_mem_cons.2 ⟨hc, hblank⟩)
      · exact Or.inr ⟨c :: lead, d, rest, rfl, List.forall_mem_cons.2 ⟨hc, hlead⟩, hd⟩

section

variable {lead rest : List Char} {c : Char} {number : Nat}

theorem indentLength_lead (h : Blanks lead) (hc : Text.isIndent c = false) :
    indentLength (lead ++ c :: rest) = lead.length := by
  rw [indentLength, List.takeWhile_append_of_pos h, List.takeWhile_cons_of_neg (by simp [hc]),
    List.append_nil]

theorem not_all_of_content (lead rest : List Char) (hc : Text.isIndent c = false) :
    (lead ++ c :: rest).all Text.isIndent = false := by
  simp [hc]

theorem contentLine?_of_blanks (h : Blanks lead) (width : Nat) :
    contentLine? number width lead = none :=
  if_pos (List.all_eq_true.2 h)

theorem contentLine?_of_content (h : Blanks lead) (hc : Text.isIndent c = false) :
    contentLine? number 0 (lead ++ c :: rest) = some ⟨number, lead.length, c :: rest⟩ := by
  rw [contentLine?, not_all_of_content lead rest hc, indentLength_lead h hc, List.drop_left,
    Nat.zero_add]
  rfl

end

namespace Body

/-! ### Indentation -/

def reindentLine (indent : Nat → Nat → List Char) (number : Nat) (text : List Char) : List Char :=
  if text.all Text.isIndent then text
  else indent number (indentLength text) ++ text.drop (indentLength text)

/-- The body with other blanks in front of every content line, which may depend on its number and
its width. -/
def reindent (indent : Nat → Nat → List Char) : List Char → List Char :=
  revise (reindentLine indent)

variable {indent : Nat → Nat → List Char}

theorem reindentLine_of_blanks {text : List Char} (h : Blanks text) (number : Nat) :
    reindentLine indent number text = text :=
  if_pos (List.all_eq_true.2 h)

theorem reindentLine_of_content {lead rest : List Char} {c : Char} (h : Blanks lead)
    (hc : Text.isIndent c = false) (number : Nat) :
    reindentLine indent number (lead ++ c :: rest) = indent number lead.length ++ c :: rest := by
  rw [reindentLine, not_all_of_content lead rest hc, indentLength_lead h hc, List.drop_left]
  rfl

theorem tame_reindentLine (hindent : ∀ number width, Blanks (indent number width)) :
    Tame (reindentLine indent) := by
  constructor
  · intro number text hinner
    rcases blanks_or_content text with hblank | ⟨lead, c, rest, rfl, hlead, hc⟩
    · rwa [reindentLine_of_blanks hblank]
    · rw [reindentLine_of_content hlead hc]
      rw [List.mem_append, not_or] at hinner ⊢
      exact ⟨(hindent number lead.length).not_mem (by decide), hinner.2⟩
  · intro number text hbare
    rcases blanks_or_content text with hblank | ⟨lead, c, rest, rfl, hlead, hc⟩
    · rwa [reindentLine_of_blanks hblank]
    · rw [reindentLine_of_content hlead hc]
      rw [List.getLast?_append_cons] at hbare ⊢
      exact hbare

theorem contentLines_reindent {f : Nat → Nat}
    (hindent : ∀ number width, Blanks (indent number width))
    (hlength : ∀ number width, (indent number width).length = f width) (body : List Char) :
    contentLines (reindent indent body) =
      (contentLines body).map fun line => { line with width := f line.width } := by
  refine contentLines_revise (tame_reindentLine hindent) (fun number text => ?_) body
  rcases blanks_or_content text with hblank | ⟨lead, c, rest, rfl, hlead, hc⟩
  · rw [reindentLine_of_blanks hblank, contentLine?_of_blanks hblank]
    rfl
  · rw [reindentLine_of_content hlead hc, contentLine?_of_content hlead hc,
      contentLine?_of_content (hindent number lead.length) hc, hlength]
    rfl

end Body

namespace Statement
open Body

variable {f : Nat → Nat} {indent : Nat → Nat → List Char}

/-- Only the order of the widths matters, and not the blanks that make them up. -/
theorem ofBody_reindent (hf : StrictMono f)
    (hindent : ∀ number width,
      Blanks (indent number width) ∧ (indent number width).length = f width)
    (body : List Char) :
    (ofBody (reindent indent body)).toOption = (ofBody body).toOption := by
  have hkeeps : KeepsOrder fun width width' => width' = f width := by
    rintro a _ b _ rfl rfl
    exact hf.lt_iff_lt.symm
  have hlines := contentLines_reindent (fun number width => (hindent number width).1)
    (fun number width => (hindent number width).2) body
  refine (toOption_ofBody_of_widths hkeeps ?_).symm
  rw [hlines, List.forall₂_map_right_iff]
  exact List.forall₂_same.2 fun line _ => ⟨rfl, rfl, rfl⟩

/-- Twice the width and one blank more: tabs on the even lines, spaces on the others. -/
def doubled (number width : Nat) : List Char :=
  .replicate (2 * width + 1) (if number % 2 = 0 then '\t' else ' ')

/-- The third line lies between two levels, before and after. -/
def stairsBody : List Char := "-> a\n   b\r\n  -> c\n \nd".toList

theorem ofBody_reindent_stairs :
    reindent doubled stairsBody = " -> a\n\t\t\t\t\t\t\tb\r\n     -> c\n \n d".toList ∧
      (ofBody (reindent doubled stairsBody)).toOption = (ofBody stairsBody).toOption ∧
      (ofBody stairsBody).toOption.isSome = true := by
  have hmono : StrictMono fun width => 2 * width + 1 := fun a b hlt => by
    show 2 * a + 1 < 2 * b + 1
    omega
  refine ⟨by decide, ofBody_reindent hmono (fun number width => ⟨?_, ?_⟩) stairsBody, by cbv⟩
  · intro c hc
    rw [List.eq_of_mem_replicate hc]
    split <;> rfl
  · exact List.length_replicate

end Statement

end Dialogue
