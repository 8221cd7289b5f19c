import Dialogue.Proofs.Gathering
import Dialogue.Proofs.Levels
import Dialogue.Proofs.Positions

/-!
# The outline of a body

The outline of a body tells what its statements, conditions and clauses are, in their
order and with their lines. It can be read off the tree of statements by a walk
(`Statement.blockEntries`), and off the tokens from left to right (`outline`), without
any look at blocks and levels. Both readings agree (`Statement.blockEntries_of_ofBody`):
a body is put together without anything being lost, told twice or moved.
-/

namespace Dialogue

inductive Entry where
  | text (line : Nat) (content : String)
  | link (line : Nat) (destination : String)
  | option (line : Nat) (label destination : String)
  | shortcut (line : Nat) (label : String)
  /-- A condition: that of an option, or of the first branch of a conditional. -/
  | ifHead (line : Nat)
  | elseIf (line : Nat)
  | otherwise (line : Nat)
  | endIf
  | assignment (line : Nat)
  | command (line : Nat) (content : String)
deriving DecidableEq, Repr

def conditionEntries (line : Nat) : Option Expr → List Entry
  | some _ => [.ifHead line]
  | none => []

def branchEntry (first : Bool) (line : Nat) : Option Expr → Entry
  | some _ => if first then .ifHead line else .elseIf line
  | none => .otherwise line

namespace Statement

mutual

/-- A statement and what stands in it, in the order of the body. -/
def entries : Statement → List Entry
  | .text line content => [.text line content]
  | .link line destination => [.link line destination]
  | .option line label destination condition =>
    .option line label destination :: conditionEntries line condition
  | .shortcut line label condition body =>
    .shortcut line label :: (conditionEntries line condition ++ blockEntries body)
  | .conditional _ branches => branchesEntries true branches ++ [.endIf]
  | .assignment line _ _ _ => [.assignment line]
  | .command line content => [.command line content]

def blockEntries : List Statement → List Entry
  | [] => []
  | s :: ss => s.entries ++ blockEntries ss

def branchesEntries (first : Bool) : List Branch → List Entry
  | [] => []
  | .mk line condition body :: branches =>
    branchEntry first line condition :: (blockEntries body ++ branchesEntries false branches)

end

theorem blockEntries_append (a b : List Statement) :
    blockEntries (a ++ b) = blockEntries a ++ blockEntries b := by
  induction a with
  | nil => rfl
  | cons s ss ih => simp only [List.cons_append, blockEntries, ih, List.append_assoc]

theorem branchesEntries_append (first : Bool) (a b : List Branch) :
    branchesEntries first (a ++ b) =
      branchesEntries first a ++ branchesEntries (first && a.isEmpty) b := by
  induction a generalizing first with
  | nil => simp [branchesEntries]
  | cons branch bs ih =>
    cases branch
    simp [branchesEntries, ih]

end Statement

/-! ### The outline of tokens -/

def Token.content (t : Token) : String := String.ofList (Text.trim t.text)

def commandEntry (line : Nat) (command : Token) : Entry :=
  let (word, n) := leadingWord command.text
  match String.ofList word with
  | "set" => .assignment line
  | "if" => .ifHead line
  | "elseif" => .elseIf line
  | "else" =>
    if (leadingWord (command.text.drop n)).1 = "if".toList then .elseIf line else .otherwise line
  | "endif" => .endIf
  | _ => .command line command.content

def proseEntries (t : Token) : List Entry :=
  if Text.trim t.text = [] then []
  else [.text t.position.line (String.ofList (Prose.unescape (Text.trim t.text)))]

/-- The outline of tokens from left to right. A text belongs to the bracket or arrow in front of
it, or else is prose; line breaks, levels and closing brackets tell nothing. -/
def outline : List Token → List Entry
  | [] => []
  | t :: rest =>
    match t.kind, rest with
    | .text, rest => proseEntries t ++ outline rest
    | .shortcutMarker, label :: rest => .shortcut t.position.line label.content :: outline rest
    | .optionStart, label :: bar :: target :: rest =>
      if bar.kind = .optionSep then
        .option t.position.line label.content target.content :: outline rest
      else .link t.position.line label.content :: outline (bar :: target :: rest)
    | .optionStart, label :: rest => .link t.position.line label.content :: outline rest
    | .commandStart, command :: rest => commandEntry t.position.line command :: outline rest
    | _, rest => outline rest

section

variable {t : Token} {rest : List Token}

theorem outline_text (h : t.kind = .text) : outline (t :: rest) = proseEntries t ++ outline rest := by
  rw [outline.eq_def]
  simp only [h]

theorem outline_command {command : Token} (h : t.kind = .commandStart) :
    outline (t :: command :: rest) = commandEntry t.position.line command :: outline rest := by
  rw [outline.eq_def]
  simp only [h]

theorem outline_shortcut {label : Token} (h : t.kind = .shortcutMarker) :
    outline (t :: label :: rest) = .shortcut t.position.line label.content :: outline rest := by
  rw [outline.eq_def]
  simp only [h]

theorem outline_option {label bar target : Token} (h : t.kind = .optionStart)
    (hb : bar.kind = .optionSep) : outline (t :: label :: bar :: target :: rest) =
      .option t.position.line label.content target.content :: outline rest := by
  rw [outline.eq_def]
  simp only [h, if_pos hb]

theorem outline_link {label close : Token} (h : t.kind = .optionStart)
    (hc : close.kind ≠ .optionSep) : outline (t :: label :: close :: rest) =
      .link t.position.line label.content :: outline (close :: rest) := by
  rw [outline.eq_def]
  cases rest with
  | nil => simp only [h]
  | cons u rest => simp only [h, if_neg hc]

def TokenKind.tells (kind : TokenKind) : Bool :=
  kind == .text || kind == .shortcutMarker || kind == .optionStart || kind == .commandStart

theorem outline_silent (h : t.kind.tells = false) : outline (t :: rest) = outline rest := by
  rw [outline.eq_def]
  simp only
  split
  · rename_i hk
    rw [hk] at h
    cases h
  · rename_i hk
    rw [hk] at h
    cases h
  · rename_i hk
    rw [hk] at h
    cases h
  · rename_i hk
    rw [hk] at h
    cases h
  · rename_i hk
    rw [hk] at h
    cases h
  · rfl

end

def ClauseKind.entry (line : Nat) : ClauseKind → Entry
  | .elseIf _ => .elseIf line
  | .otherwise => .otherwise line
  | .endIf => .endIf

def Item.entries : Item → List Entry
  | .statement s => s.entries
  | .shortcut line label condition => .shortcut line label :: conditionEntries line condition
  | .ifStart line _ => [.ifHead line]
  | .clause c => [c.kind.entry c.position.line]
  | _ => []

theorem leadingWord_trimStart (cs : List Char) :
    (leadingWord (Text.trimStart cs)).1 = (leadingWord cs).1 := by
  have htwice : Text.trimStart (Text.trimStart cs) = Text.trimStart cs :=
    List.dropWhile_idempotent _ cs
  unfold leadingWord
  simp only [htwice]

theorem drop_leading (cs : List Char) :
    cs.drop (cs.length - (Text.trimStart cs).length) = Text.trimStart cs := by
  have hsuffix : Text.trimStart cs <:+ cs := List.dropWhile_suffix _
  exact (List.suffix_iff_eq_drop.1 hsuffix).symm

theorem leadingWord_of_blank {cs : List Char} (h : Text.trim cs = []) :
    (leadingWord cs).1 = [] := by
  have hall : ∀ c ∈ Text.trimStart cs, Text.isBlank c = true := by
    have hrev := List.dropWhile_eq_nil_iff.1 (List.reverse_eq_nil_iff.1 h)
    simpa using hrev
  have hstart : Text.trimStart cs = [] :=
    (List.dropWhile_idempotent Text.isBlank cs).symm.trans (List.dropWhile_eq_nil_iff.2 hall)
  unfold leadingWord
  simp only [hstart, List.takeWhile_nil]

theorem elseClause_entry {command : Token} {n line : Nat} {kind : ClauseKind}
    (h : elseClause command n = .ok kind) : kind.entry line =
      if (leadingWord (command.text.drop n)).1 = "if".toList then .elseIf line
      else .otherwise line := by
  unfold elseClause at h
  simp only at h
  rw [← List.drop_drop, drop_leading, leadingWord_trimStart] at h
  split at h
  · rename_i hblank
    cases h
    rw [leadingWord_of_blank hblank, if_neg (by decide)]
    rfl
  · split at h
    · rename_i hword
      obtain ⟨e, -, rfl⟩ := exists_of_map_eq_ok h
      rw [if_pos hword]
      rfl
    · cases h

theorem Says.entries {start command : Token} {d : Directive}
    (h : Says start.position.line command d) :
    (d.item start command).entries = [commandEntry start.position.line command] := by
  unfold commandEntry
  simp only
  cases h with
  | set word | ifStart word | elseIf word | endIf word =>
    rw [word]
    rfl
  | otherwise word clause =>
    rw [word]
    simp only [← elseClause_entry clause]
    rfl
  | command words =>
    simp only [List.mem_cons, List.not_mem_nil, or_false, not_or] at words
    obtain ⟨hset, hif, helseif, helse, hendif⟩ := words
    split
    · rename_i hword
      exact absurd hword hset
    · rename_i hword
      exact absurd hword hif
    · rename_i hword
      exact absurd hword helseif
    · rename_i hword
      exact absurd hword helse
    · rename_i hword
      exact absurd hword hendif
    · rfl

section

variable {t : Token} {item : Item} {used behind : List Token} {p : Position}

theorem outline_condition {found : Option Expr} (h : ConditionTaken found used behind)
    (hp : Placed p (used ++ behind)) :
    outline (used ++ behind) = conditionEntries p.line found ++ outline behind := by
  cases h with
  | none => rfl
  | @some lead _ opening command closing e blank opens text closes line word =>
    have hlead : outline (lead ++ opening :: command :: closing :: behind) =
        outline (opening :: command :: closing :: behind) := by
      rcases blank with rfl | ⟨u, rfl, hu⟩
      · rfl
      · simp only [Token.isBlankText, Bool.and_eq_true, beq_iff_eq] at hu
        rw [List.singleton_append, outline_text hu.1, proseEntries, if_pos hu.2]
        rfl
    have hline : opening.position.line = p.line := by
      rw [List.append_assoc] at hp
      refine hp.line_eq fun u hu => ?_
      rcases blank with rfl | ⟨v, rfl, hv⟩
      · cases hu
      · rw [List.mem_singleton.1 hu]
        simp only [Token.isBlankText, Bool.and_eq_true, beq_iff_eq] at hv
        simp [hv.1]
    have hword : commandEntry opening.position.line command = .ifHead opening.position.line := by
      unfold commandEntry
      simp only [word]
      rfl
    rw [List.append_assoc]
    simp only [List.cons_append, List.nil_append]
    rw [hlead, outline_command opens, outline_silent (by rw [closes]; rfl), hword, hline]
    rfl

theorem outline_lineBreak {opens : Bool} (h : LineTaken opens used behind) :
    outline (used ++ behind) = outline behind := by
  cases h with
  | deeper _ breaks level =>
    simp only [List.cons_append, List.nil_append]
    rw [outline_silent (by rw [breaks]; rfl), outline_silent (by rw [level]; rfl)]
  | level breaks _ => exact outline_silent (by rw [breaks]; rfl)
  | last => rfl

theorem entries_shortcutItem (marker label : Token) (found : Option Expr) (opens : Bool) :
    (shortcutItem marker label found opens).entries =
      .shortcut marker.position.line label.content :: conditionEntries marker.position.line found := by
  cases opens with
  | true => rfl
  | false => simp [shortcutItem, Item.entries, Statement.entries, Statement.blockEntries,
      Token.content]

theorem Taken.outline (h : Taken t item used behind) (hp : Placed p (t :: (used ++ behind))) :
    outline (t :: (used ++ behind)) = item.entries ++ outline behind := by
  have hline : t.position.line = p.line := by rw [hp.1]
  cases h with
  | newline _ kind | indent _ kind | dedent _ kind => exact outline_silent (by rw [kind]; rfl)
  | blank _ kind blank =>
    rw [List.nil_append, outline_text kind, proseEntries, if_pos blank]
    rfl
  | text _ kind blank =>
    rw [List.nil_append, outline_text kind, proseEntries, if_neg blank]
    rfl
  | link _ kind text closes =>
    simp only [List.cons_append, List.nil_append]
    rw [outline_link kind (by simp [closes]), outline_silent (by rw [closes]; rfl)]
    rfl
  | @option label bar target close inner _ found kind text separator destination closes condition =>
    have hinner : ∃ q, Placed q (inner ++ behind) ∧ q.line = p.line := by
      have hsplit : t :: (label :: bar :: target :: close :: inner ++ behind) =
          [t, label, bar, target, close] ++ (inner ++ behind) := rfl
      rw [hsplit] at hp
      obtain ⟨q, hq, hsame⟩ := hp.behind
      exact ⟨q, hq, hsame (by simp [kind, text, separator, destination, closes])⟩
    obtain ⟨q, hq, hsame⟩ := hinner
    simp only [List.cons_append]
    rw [outline_option kind separator, outline_silent (by rw [closes]; rfl),
      outline_condition condition hq, hsame, ← hline]
    rfl
  | @shortcut label inner breaks _ found opens kind text condition line =>
    have hinner : ∃ q, Placed q (inner ++ (breaks ++ behind)) ∧ q.line = p.line := by
      have hsplit : t :: (label :: (inner ++ breaks) ++ behind) =
          [t, label] ++ (inner ++ (breaks ++ behind)) := by simp
      rw [hsplit] at hp
      obtain ⟨q, hq, hsame⟩ := hp.behind
      exact ⟨q, hq, hsame (by simp [kind, text])⟩
    obtain ⟨q, hq, hsame⟩ := hinner
    rw [List.cons_append, List.append_assoc, outline_shortcut kind, outline_condition condition hq,
      outline_lineBreak line, hsame, ← hline, entries_shortcutItem]
    rfl
  | command _ kind text closes said =>
    simp only [List.cons_append, List.nil_append]
    rw [outline_command kind, outline_silent (by rw [closes]; rfl), said.entries]
    rfl

end

/-! ### What has been put together -/

open Statement (blockEntries branchesEntries blockEntries_append branchesEntries_append)

def Enclosing.entries : Enclosing → List Entry
  | .shortcut line label condition before =>
    blockEntries before ++ .shortcut line label :: conditionEntries line condition
  | .conditional _ branches branchLine condition before =>
    blockEntries before ++ branchesEntries true branches ++
      [branchEntry branches.isEmpty branchLine condition]

def aroundEntries : List Enclosing → List Entry
  | [] => []
  | x :: around => aroundEntries around ++ x.entries

namespace Assembly

def entries (a : Assembly) : List Entry := aroundEntries a.around ++ blockEntries a.block

variable {a b : Assembly} {t : Token} {e : BodyEnd}

theorem gathers_entries : Gathers blockEntries Enclosing.entries aroundEntries Item.entries where
  block_nil := rfl
  around_nil := rfl
  around_cons _ _ := rfl
  silent := ⟨rfl, rfl, rfl⟩
  push _ _ := by simp [blockEntries_append, blockEntries, Item.entries]
  shortcut _ _ _ _ := rfl
  close _ _ _ _ _ := by
    simp [blockEntries_append, blockEntries, Statement.entries, Enclosing.entries]
  ifStart _ _ _ := by simp [Enclosing.entries, branchesEntries, branchEntry, Item.entries]
  next {_ found} kind _ _ _ _ _ _ := by
    cases found <;>
      simp [Enclosing.entries, branchesEntries_append, branchesEntries, branchEntry, Item.entries,
        kind, ClauseKind.entry]
  ends kind _ _ _ _ _ _ := by
    simp [Enclosing.entries, blockEntries_append, blockEntries, Statement.entries,
      branchesEntries_append, branchesEntries, Item.entries, kind, ClauseKind.entry]

/-- An item adds its outline behind what has been read. -/
theorem entries_add {item : Item} (h : a.add t item = .ok b) :
    b.entries = a.entries ++ item.entries :=
  gathers_entries.add h

/-- The statements tell what has been read, and what the tokens left tell. -/
theorem entries_read {p : Position} {tokens : List Token} {ss : List Statement}
    (hp : Placed p tokens) (hended : Ended tokens) (h : a.read e tokens = .ok ss) :
    blockEntries ss = a.entries ++ outline tokens := by
  fun_induction read e a tokens generalizing p with
  | case1 => exact hended.elim
  | case2 a t rest hk =>
    rw [Ended, if_pos hk] at hended
    subst hended
    rw [gathers_entries.finish h, outline_silent (by rw [hk]; rfl)]
    exact (List.append_nil _).symm
  | case3 => cases h
  | case4 => cases h
  | case5 a t rest _ item n hitem b hadd ih =>
    have hended' := ended_drop hended hitem
    obtain ⟨used, behind, rfl, rfl, htaken⟩ := taken_of_readItem hitem
    rw [List.drop_left] at ih hended' h
    have hsplit : t :: (used ++ behind) = (t :: used) ++ behind := rfl
    obtain ⟨q, hq, -⟩ := (hsplit ▸ hp).behind
    calc blockEntries ss
      _ = b.entries ++ outline behind := ih hq hended' h
      _ = a.entries ++ (item.entries ++ outline behind) := by
        rw [entries_add hadd, List.append_assoc]
      _ = a.entries ++ outline (t :: (used ++ behind)) := by rw [htaken.outline hp]

end Assembly

/-- What the statements of a body tell is what its tokens tell, from left to right: nothing is lost,
told twice or moved. -/
theorem Statement.blockEntries_of_ofBody {body : List Char} {ss : List Statement}
    (h : Statement.ofBody body = .ok ss) :
    ∃ tokens, Body.tokenize body = .ok tokens ∧ blockEntries ss = outline tokens := by
  obtain ⟨tokens, htokens, hread⟩ := exists_tokens_of_ofBody h
  refine ⟨tokens, htokens, ?_⟩
  exact Assembly.entries_read (Cursor.placed_tokens? _ _ htokens) (Cursor.ended_tokenize htokens)
    hread

def errands : List Char :=
  "-> Pay <<if $gold>>\n\tThanks. <<set $gold = false>>\n<<if $late>>\n[[Home|home]]<<if $key>>\n<<else if $tired>>\n[[inn]]\n<<else>>\n<<sing>>\n<<endif>>".toList

theorem Statement.blockEntries_of_ofBody_errands :
    ∃ ss tokens, Statement.ofBody errands = .ok ss ∧ Body.tokenize errands = .ok tokens ∧
      blockEntries ss = outline tokens ∧
      outline tokens = [.shortcut 1 "Pay", .ifHead 1, .text 2 "Thanks.", .assignment 2, .ifHead 3,
        .option 4 "Home" "home", .ifHead 4, .elseIf 5, .link 6 "inn", .otherwise 7,
        .command 8 "sing", .endIf] := by
  have hread : Statement.ofBody errands = .ok
      [.shortcut 1 "Pay" (some (.var 1 "gold"))
          [.text 2 "Thanks.", .assignment 2 "gold" .set (.literal 2 (.bool false))],
        .conditional 3
          [.mk 3 (some (.var 3 "late")) [.option 4 "Home" "home" (some (.var 4 "key"))],
            .mk 5 (some (.var 5 "tired")) [.link 6 "inn"], .mk 7 none [.command 8 "sing"]]] := by
    cbv
  obtain ⟨tokens, htokens, hentries⟩ := Statement.blockEntries_of_ofBody hread
  refine ⟨_, tokens, hread, htokens, hentries, ?_⟩
  rw [← hentries]
  rfl

end Dialogue
