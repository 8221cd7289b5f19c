import Dialogue.Proofs.Parsed

/-!
# The tokens of an item

A reader cuts the tokens of its item off those that are left. `Taken` spells out,
for every kind of item, which tokens these are, and `taken_of_readItem` that readers
take nothing else: a condition ends the line of its option, and a shortcut option
takes the line break behind it, with the level that opens there.
-/

namespace Dialogue

/-- The tokens of a condition at the end of a line, and what follows them. -/
inductive ConditionTaken : Option Expr → List Token → List Token → Prop
  | none (behind : List Token) : ConditionTaken none [] behind
  | some {lead behind : List Token} {opening command closing : Token} {e : Expr}
      (blank : lead = [] ∨ ∃ t, lead = [t] ∧ t.isBlankText = true)
      (opens : opening.kind = .commandStart) (text : command.kind = .text)
      (closes : closing.kind = .commandEnd) (line : endsLine behind = true)
      (word : (leadingWord command.text).1 = "if".toList) :
      ConditionTaken (some e) (lead ++ [opening, command, closing]) behind

/-- The tokens of the end of a line, and what follows them; a level may open there. -/
inductive LineTaken : Bool → List Token → List Token → Prop
  | deeper {newline indent : Token} (behind : List Token) (breaks : newline.kind = .newline)
      (level : indent.kind = .indent) : LineTaken true [newline, indent] behind
  | level {newline : Token} {behind : List Token} (breaks : newline.kind = .newline)
      (level : ∀ u ∈ behind.head?, u.kind ≠ .indent) : LineTaken false [newline] behind
  | last {behind : List Token} (line : endsLine behind = true)
      (other : ∀ u ∈ behind.head?, u.kind ≠ .newline) : LineTaken false [] behind

theorem eq_of_isBlankText {tokens : List Token}
    (h : (tokens.head?.map Token.isBlankText).getD false = true) :
    ∃ t rest, tokens = t :: rest ∧ t.isBlankText = true := by
  cases tokens with
  | nil => cases h
  | cons t rest => exact ⟨t, rest, rfl, h⟩

theorem conditionTaken_of_trailingCondition {tokens : List Token} {found : Option Expr} {n : Nat}
    (h : trailingCondition tokens = .ok (found, n)) :
    ∃ used behind, tokens = used ++ behind ∧ used.length = n ∧
      ConditionTaken found used behind := by
  have hlead : ∃ lead rest, tokens = lead ++ rest ∧
      (lead = [] ∨ ∃ t, lead = [t] ∧ t.isBlankText = true) ∧
      lead.length = if (tokens.head?.map Token.isBlankText).getD false then 1 else 0 := by
    split
    · rename_i hblank
      obtain ⟨t, rest, rfl, ht⟩ := eq_of_isBlankText hblank
      exact ⟨[t], rest, rfl, Or.inr ⟨t, rfl, ht⟩, rfl⟩
    · exact ⟨[], tokens, rfl, Or.inl rfl, rfl⟩
  obtain ⟨lead, rest, htokens, hblank, hlength⟩ := hlead
  unfold trailingCondition at h
  simp only at h
  rw [← hlength] at h
  rw [htokens, List.drop_left] at h
  split at h
  · rename_i first command last behind
    split at h
    · rename_i hkinds
      obtain ⟨e, -, heq⟩ := exists_of_map_eq_ok h
      cases heq
      refine ⟨lead ++ [first, command, last], behind, ?_, ?_, ?_⟩
      · rw [htokens, List.append_assoc]
        rfl
      · rw [List.length_append]
        rfl
      · exact .some hblank hkinds.1 hkinds.2.1 hkinds.2.2.1 hkinds.2.2.2.1 hkinds.2.2.2.2
    · cases h
      exact ⟨[], tokens, rfl, rfl, .none _⟩
  · cases h
    exact ⟨[], tokens, rfl, rfl, .none _⟩

theorem lineTaken_of_lineBreakTokens {tokens : List Token} {opens : Bool} {m : Nat}
    (hline : endsLine tokens = true) (h : lineBreakTokens tokens = (m, opens)) :
    ∃ used behind, tokens = used ++ behind ∧ used.length = m ∧ LineTaken opens used behind := by
  unfold lineBreakTokens at h
  split at h
  · rename_i t next rest
    split at h
    · rename_i hbreak
      split at h
      · rename_i hindent
        cases h
        exact ⟨[t, next], rest, rfl, rfl, .deeper rest hbreak hindent⟩
      · rename_i hindent
        cases h
        refine ⟨[t], next :: rest, rfl, rfl, .level hbreak fun u hu => ?_⟩
        cases hu
        exact hindent
    · rename_i hbreak
      cases h
      refine ⟨[], _, rfl, rfl, .last hline fun u hu => ?_⟩
      cases hu
      exact hbreak
  · rename_i t
    split at h
    · rename_i hbreak
      cases h
      exact ⟨[t], [], rfl, rfl, .level hbreak nofun⟩
    · rename_i hbreak
      cases h
      refine ⟨[], _, rfl, rfl, .last hline fun u hu => ?_⟩
      cases hu
      exact hbreak
  · cases h
    exact ⟨[], [], rfl, rfl, .last rfl nofun⟩

inductive Says (line : Nat) (command : Token) : Directive → Prop
  | set (word : String.ofList (leadingWord command.text).1 = "set") (target : String)
      (op : AssignOp) (value : Expr) : Says line command (.statement (.assignment line target op value))
  | ifStart (word : String.ofList (leadingWord command.text).1 = "if") (condition : Expr) :
      Says line command (.ifStart condition)
  | elseIf (word : String.ofList (leadingWord command.text).1 = "elseif") (condition : Expr) :
      Says line command (.clause (.elseIf condition))
  | otherwise {kind : ClauseKind} (word : String.ofList (leadingWord command.text).1 = "else")
      (clause : elseClause command (leadingWord command.text).2 = .ok kind) :
      Says line command (.clause kind)
  | endIf (word : String.ofList (leadingWord command.text).1 = "endif") :
      Says line command (.clause .endIf)
  | command (words : String.ofList (leadingWord command.text).1 ∉
      ["set", "if", "elseif", "else", "endif"]) :
      Says line command (.statement (.command line (String.ofList (Text.trim command.text))))

theorem said_of_readDirective {line : Nat} {command : Token} {d : Directive}
    (h : readDirective line command = .ok d) : Says line command d := by
  unfold readDirective at h
  simp only at h
  split at h
  · rename_i hword
    obtain ⟨a, -, rfl⟩ := exists_of_map_eq_ok h
    exact .set hword a.target a.op a.value
  · rename_i hword
    obtain ⟨e, -, rfl⟩ := exists_of_map_eq_ok h
    exact .ifStart hword e
  · rename_i hword
    obtain ⟨e, -, rfl⟩ := exists_of_map_eq_ok h
    exact .elseIf hword e
  · rename_i hword
    obtain ⟨kind, hkind, rfl⟩ := exists_of_map_eq_ok h
    exact .otherwise hword hkind
  · rename_i hword
    split at h
    · cases h
      exact .endIf hword
    · cases h
  · rename_i hset hif helseif helse hendif
    cases h
    refine .command ?_
    simp only [List.mem_cons, List.not_mem_nil, or_false, not_or]
    exact ⟨hset, hif, helseif, helse, hendif⟩

/-! ### Items -/

/-- The tokens of an item behind its first one, and what follows them. -/
inductive Taken (t : Token) : Item → List Token → List Token → Prop
  | newline (behind : List Token) (kind : t.kind = .newline) : Taken t .space [] behind
  | blank (behind : List Token) (kind : t.kind = .text) (blank : Text.trim t.text = []) :
      Taken t .space [] behind
  | indent (behind : List Token) (kind : t.kind = .indent) : Taken t .indent [] behind
  | dedent (behind : List Token) (kind : t.kind = .dedent) : Taken t .dedent [] behind
  | text (behind : List Token) (kind : t.kind = .text) (blank : ¬Text.trim t.text = []) :
      Taken t (.statement (.text t.position.line
        (String.ofList (Prose.unescape (Text.trim t.text))))) [] behind
  | link {label close : Token} (behind : List Token) (kind : t.kind = .optionStart)
      (text : label.kind = .text) (closes : close.kind = .optionEnd) :
      Taken t (.statement (.link t.position.line (String.ofList (Text.trim label.text))))
        [label, close] behind
  | option {label bar target close : Token} {used behind : List Token} {found : Option Expr}
      (kind : t.kind = .optionStart) (text : label.kind = .text)
      (separator : bar.kind = .optionSep) (destination : target.kind = .identifier)
      (closes : close.kind = .optionEnd) (condition : ConditionTaken found used behind) :
      Taken t (.statement (.option t.position.line (String.ofList (Text.trim label.text))
        (String.ofList (Text.trim target.text)) found))
        (label :: bar :: target :: close :: used) behind
  | shortcut {label : Token} {used breaks behind : List Token} {found : Option Expr}
      {opens : Bool} (kind : t.kind = .shortcutMarker) (text : label.kind = .text)
      (condition : ConditionTaken found used (breaks ++ behind))
      (line : LineTaken opens breaks behind) :
      Taken t (shortcutItem t label found opens) (label :: (used ++ breaks)) behind
  | command {command close : Token} (behind : List Token) {d : Directive}
      (kind : t.kind = .commandStart) (text : command.kind = .text)
      (closes : close.kind = .commandEnd) (said : Says t.position.line command d) :
      Taken t (d.item t command) [command, close] behind

def TokenKind.inner : List TokenKind :=
  [.text, .identifier, .optionSep, .optionEnd, .commandStart, .commandEnd]

theorem TokenKind.of_mem_inner {kind : TokenKind} (h : kind ∈ inner) :
    kind ≠ .newline ∧ kind ≠ .indent ∧ kind ≠ .dedent ∧ kind ≠ .shortcutMarker := by
  revert kind
  decide

theorem ConditionTaken.kinds {found : Option Expr} {used behind : List Token}
    (h : ConditionTaken found used behind) : ∀ u ∈ used, u.kind ∈ TokenKind.inner := by
  cases h with
  | none => nofun
  | @some lead _ opening command closing _ blank opens text closes line word =>
    have hlead : ∀ u ∈ lead, u.kind = .text := by
      rcases blank with rfl | ⟨t, rfl, ht⟩
      · nofun
      · intro u hu
        rw [List.mem_singleton.1 hu]
        simp only [Token.isBlankText, Bool.and_eq_true, beq_iff_eq] at ht
        exact ht.1
    intro u hu
    rcases List.mem_append.1 hu with hu | hu
    · rw [hlead u hu]
      decide
    · simp only [List.mem_cons, List.not_mem_nil, or_false] at hu
      rcases hu with rfl | rfl | rfl
      · rw [opens]
        decide
      · rw [text]
        decide
      · rw [closes]
        decide

theorem LineTaken.kinds {opens : Bool} {used behind : List Token}
    (h : LineTaken opens used behind) : ∀ u ∈ used, u.kind = .newline ∨ u.kind = .indent := by
  cases h with
  | deeper _ breaks level =>
    intro u hu
    simp only [List.mem_cons, List.not_mem_nil, or_false] at hu
    rcases hu with rfl | rfl
    · exact Or.inl breaks
    · exact Or.inr level
  | level breaks _ =>
    intro u hu
    rw [List.mem_singleton.1 hu]
    exact Or.inl breaks
  | last => nofun

/-- Only a shortcut option takes a line break. -/
theorem Taken.kinds {t : Token} {item : Item} {used behind : List Token}
    (h : Taken t item used behind) (hk : t.kind ≠ .shortcutMarker) :
    ∀ u ∈ used, u.kind ∈ TokenKind.inner := by
  cases h with
  | newline | blank | indent | dedent | text => nofun
  | link _ _ text closes => simp [text, closes, TokenKind.inner]
  | option _ text separator destination closes condition =>
    simp only [List.mem_cons, forall_eq_or_imp, text, separator, destination, closes]
    exact ⟨by decide, by decide, by decide, by decide, condition.kinds⟩
  | shortcut kind => exact absurd kind hk
  | command _ _ text closes => simp [text, closes, TokenKind.inner]

theorem Taken.kinds_or_break {t : Token} {item : Item} {used behind : List Token}
    (h : Taken t item used behind) :
    ∀ u ∈ used, u.kind ∈ TokenKind.inner ∨ u.kind = .newline ∨ u.kind = .indent := by
  by_cases hk : t.kind = .shortcutMarker
  · cases h with
    | newline _ kind | blank _ kind | indent _ kind | dedent _ kind | text _ kind
    | link _ kind | command _ kind =>
      rw [kind] at hk
      cases hk
    | option kind =>
      rw [kind] at hk
      cases hk
    | shortcut _ text condition line =>
      intro u hu
      rcases List.mem_cons.1 hu with rfl | hu
      · rw [text]
        decide
      · rcases List.mem_append.1 hu with hu | hu
        · exact Or.inl (condition.kinds u hu)
        · exact Or.inr (line.kinds u hu)
  · exact fun u hu => Or.inl (h.kinds hk u hu)

def Ended : List Token → Prop
  | [] => False
  | t :: ts => if t.kind = .endOfInput then ts = [] else Ended ts

theorem ended_append_last {before : List Token} {last : Token} (hlast : last.kind = .endOfInput)
    (hbefore : ∀ t ∈ before, t.kind ≠ .endOfInput) : Ended (before ++ [last]) := by
  induction before with
  | nil => exact (if_pos hlast).mpr rfl
  | cons t before ih =>
    refine (if_neg (hbefore t List.mem_cons_self)).mpr ?_
    exact ih fun u hu => hbefore u (List.mem_cons_of_mem t hu)

theorem Ended.behind {used behind : List Token} (h : Ended (used ++ behind))
    (hused : ∀ u ∈ used, u.kind ≠ .endOfInput) : Ended behind := by
  induction used with
  | nil => exact h
  | cons u used ih =>
    rw [List.cons_append, Ended, if_neg (hused u List.mem_cons_self)] at h
    exact ih h fun v hv => hused v (List.mem_cons_of_mem u hv)

theorem Taken.ended {t : Token} {item : Item} {used behind : List Token}
    (h : Taken t item used behind) (ht : t.kind ≠ .endOfInput)
    (hended : Ended (t :: (used ++ behind))) : Ended behind := by
  rw [Ended, if_neg ht] at hended
  refine hended.behind fun u hu => ?_
  rcases h.kinds_or_break u hu with hk | hk | hk
  · intro hend
    rw [hend] at hk
    revert hk
    decide
  · simp [hk]
  · simp [hk]

section

variable {e : BodyEnd} {t : Token} {rest : List Token} {item : Item} {n : Nat}

theorem OptionRead.taken (hk : t.kind = .optionStart) (h : OptionRead t rest item n) :
    ∃ used behind, rest = used ++ behind ∧ used.length = n ∧ Taken t item used behind := by
  cases h with
  | @link label close behind k text ne_nil closing condition =>
    exact ⟨[label, close], behind, rfl, rfl, .link behind hk text closing⟩
  | @option label bar target close tail found k text ne_nil separator destination closing
      condition =>
    obtain ⟨used, behind, rfl, rfl, hcondition⟩ := conditionTaken_of_trailingCondition condition
    refine ⟨label :: bar :: target :: close :: used, behind, rfl, ?_,
      .option hk text separator destination closing hcondition⟩
    simp only [List.length_cons]
    omega

theorem ShortcutHead.taken (hk : t.kind = .shortcutMarker) (h : ShortcutHead t rest item n) :
    ∃ used behind, rest = used ++ behind ∧ used.length = n ∧ Taken t item used behind := by
  cases h with
  | @read label tail found k m opens text ne_nil condition line breaks =>
    obtain ⟨used, after, rfl, rfl, hcondition⟩ := conditionTaken_of_trailingCondition condition
    rw [List.drop_left] at line breaks
    obtain ⟨last, behind, rfl, rfl, hline⟩ := lineTaken_of_lineBreakTokens line breaks
    refine ⟨label :: (used ++ last), behind, ?_, ?_, .shortcut hk text hcondition hline⟩
    · rw [List.cons_append, List.append_assoc]
    · simp only [List.length_cons, List.length_append]
      omega

theorem CommandRead.taken (hk : t.kind = .commandStart) (h : CommandRead t rest item n) :
    ∃ used behind, rest = used ++ behind ∧ used.length = n ∧ Taken t item used behind := by
  cases h with
  | @read command close behind d text closing directive =>
    exact ⟨[command, close], behind, rfl, rfl, .command behind hk text closing
      (said_of_readDirective directive)⟩

/-- A reader takes the tokens of its item and leaves what follows them. -/
theorem taken_of_readItem (h : readItem e t rest = .ok (item, n)) :
    ∃ used behind, rest = used ++ behind ∧ used.length = n ∧ Taken t item used behind := by
  cases itemRead_of_readItem h with
  | newline kind => exact ⟨[], rest, rfl, rfl, .newline rest kind⟩
  | indent kind => exact ⟨[], rest, rfl, rfl, .indent rest kind⟩
  | dedent kind => exact ⟨[], rest, rfl, rfl, .dedent rest kind⟩
  | blank kind blank => exact ⟨[], rest, rfl, rfl, .blank rest kind blank⟩
  | text kind ne_nil => exact ⟨[], rest, rfl, rfl, .text rest kind ne_nil⟩
  | option kind read => exact read.taken kind
  | shortcut kind read => exact read.taken kind
  | command kind read => exact read.taken kind

end

end Dialogue
