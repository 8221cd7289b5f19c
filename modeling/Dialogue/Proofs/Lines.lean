import Dialogue.Proofs.Places

/-!
# Lines of statements

Each kind of line that a statement is written with is read as what it was written
for, up to the lines that are noted in it.
-/

namespace Dialogue

open Statement

theorem Text.Phrase.last_ne {cs : List Char} (h : Text.Phrase cs) (c : Char)
    (hc : Text.isBlank c = true) : cs.getLast? ≠ some c := by
  intro hl
  rw [h.last c hl] at hc
  cases hc

/-- An expression that can be written in a command and read back. -/
structure Expr.Writable (e : Expr) : Prop where
  spellable : e.spellable = true
  finite : e.finite = true
  unbroken : e.unbroken = true

def ConditionWritable (condition : Option Expr) : Prop := ∀ e, condition = some e → e.Writable

theorem erased_atLine (e : Expr) (n : Nat) : (e.atLine n).atLine 0 = e.atLine 0 :=
  Expr.atLine_atLine 0 n e

theorem sealed_command_expr (word : List Char) (e : Expr) (he : e.Writable) (hne : word ≠ [])
    (hn : '\n' ∉ word) (hb : '>' ∉ word) : Sealed (word ++ e.chars) :=
  (tidy_of_not_mem word hne hn hb).toSealed.append
    (Expr.tidy_chars e he.spellable he.unbroken)

namespace Cursor

section

variable {c : Cursor} {level : Nat} {following : List Char}

/-- The rest of the line is read as the statement `s`, up to its lines. -/
def ReadsStatement (c : Cursor) (level : Nat) (following : List Char) (s : Statement) : Prop :=
  ∃ s', s'.erased = s.erased ∧ ∀ a : Assembly, c.ReadsLine a level following (a.push s')

theorem Inside.reads_text {content : List Char} (line : Nat)
    (h : Inside c .base true (tabLevels level) (Prose.escape content ++ '\n' :: following))
    (hp : Text.Phrase content) :
    c.ReadsStatement level following (.text line (String.ofList content)) := by
  have hlen := Mode.textLength_escape content following hp.newline
    (hp.last_ne '\r' (by decide))
  obtain ⟨t, d, hw, hk, ht, hi⟩ := h.text (by decide)
    (fun _ => Mode.atArrow_escape content following) (Mode.escape_ne_nil content hp.ne_nil) hlen
  refine ⟨.text t.position.line (String.ofList content), rfl, fun a => ?_⟩
  refine ⟨[t], d, false, hw, hi, fun e newline rest hn => ?_⟩
  have hitem := readItem_text e (newline :: rest) hk ht hp
  exact (Assembly.read_item hitem rfl).trans (Assembly.read_newline e rest _ hn)

theorem Inside.reads_command {text : List Char}
    (h : Inside c .base true (tabLevels level)
      ('<' :: '<' :: text ++ '>' :: '>' :: '\n' :: following))
    (hs : Sealed text) :
    ∃ first second, second.text = text ∧ ∀ (a b : Assembly) (d : Directive),
      readDirective first.position.line second = .ok d →
      a.add first (d.item first second) = .ok b → c.ReadsLine a level following b := by
  obtain ⟨first, second, third, f, hw, hk1, hk2, ht, hk3, hi⟩ := h.command hs
  refine ⟨first, second, ht, fun a b d hd ha => ?_⟩
  refine ⟨[first, second, third], f, false, hw, hi, fun e newline rest hn => ?_⟩
  have hitem := readItem_command e (newline :: rest) hk1 hk2 hk3 hd
  exact (Assembly.read_item hitem ha).trans (Assembly.read_newline e rest b hn)

theorem Inside.reads_plain_command {content : List Char} (line : Nat)
    (h : Inside c .base true (tabLevels level)
      ('<' :: '<' :: content ++ '>' :: '>' :: '\n' :: following))
    (hp : Text.Phrase content) (hs : Sealed content) (hd : isDirective content = false) :
    c.ReadsStatement level following (.command line (String.ofList content)) := by
  obtain ⟨first, second, ht, hread⟩ := h.reads_command hs
  have hcommand := readDirective_command first.position.line second (by rw [ht]; exact hd)
  rw [ht, hp.trim] at hcommand
  exact ⟨.command first.position.line (String.ofList content), rfl,
    fun a => hread a _ _ hcommand rfl⟩

theorem tidy_assignmentLead (target : String) (op : AssignOp)
    (ht : Expr.isIdentifier target.toList = true) : Tidy (assignmentLead target op) := by
  have hdollar : Tidy [' ', '$'] := tidy_of_not_mem _ (by decide) (by decide) (by decide)
  have hop : Tidy (' ' :: op.symbol.toList ++ [' ']) :=
    tidy_of_not_mem _ (by simp) (by cases op <;> decide) (by cases op <;> decide)
  have hall := hdollar.append ((Expr.tidy_identifier _ ht).append hop)
  simpa [assignmentLead] using hall

theorem Inside.reads_assignment {target : String} {op : AssignOp} {value : Expr} (line : Nat)
    (h : Inside c .base true (tabLevels level) ('<' :: '<' ::
      ("set".toList ++ (assignmentLead target op ++ value.chars)) ++
      '>' :: '>' :: '\n' :: following))
    (ht : Expr.isIdentifier target.toList = true) (hv : value.Writable) :
    c.ReadsStatement level following (.assignment line target op value) := by
  have hset : Sealed "set".toList :=
    (tidy_of_not_mem _ (by decide) (by decide) (by decide)).toSealed
  have hs := hset.append ((tidy_assignmentLead target op ht).append
    (Expr.tidy_chars value hv.spellable hv.unbroken))
  obtain ⟨first, second, htext, hread⟩ := h.reads_command hs
  have hd := readDirective_set first.position.line second target op value ht hv.spellable
    hv.finite htext
  refine ⟨.assignment first.position.line target op (value.atLine second.position.line), ?_,
    fun a => hread a _ _ hd rfl⟩
  simp only [erased, erased_atLine]

/-! ### Heads of branches -/

theorem branchHead_if (condition : Expr) (rest : List Char) :
    branchHead true (some condition) ++ rest =
      '<' :: '<' :: ("if ".toList ++ condition.chars) ++ '>' :: '>' :: rest := by
  unfold branchHead
  rw [if_pos rfl, List.append_assoc, List.append_assoc]
  rfl

theorem branchHead_elseif (condition : Expr) (rest : List Char) :
    branchHead false (some condition) ++ rest =
      '<' :: '<' :: ("elseif ".toList ++ condition.chars) ++ '>' :: '>' :: rest := by
  unfold branchHead
  rw [if_neg Bool.false_ne_true, List.append_assoc, List.append_assoc]
  rfl

theorem Inside.reads_if {condition : Expr} (a : Assembly)
    (h : Inside c .base true (tabLevels level)
      (branchHead true (some condition) ++ '\n' :: following))
    (hc : condition.Writable) :
    ∃ line found, erasedCondition (some found) = erasedCondition (some condition) ∧
      c.ReadsLine a level following (a.nest (.conditional line [] line (some found))) := by
  have hs := sealed_command_expr "if ".toList condition hc (by decide) (by decide) (by decide)
  rw [branchHead_if] at h
  obtain ⟨first, second, ht, hread⟩ := h.reads_command hs
  have hd := readDirective_if first.position.line second condition hc.spellable hc.finite ht
  refine ⟨first.position.line, condition.atLine second.position.line, ?_, hread a _ _ hd rfl⟩
  simp only [erasedCondition, Option.map_some, erased_atLine]

theorem Inside.reads_clause {condition : Option Expr} {a : Assembly} {line branchLine : Nat}
    {branches : List Branch} {previous : Expr} {before : List Statement}
    {around : List Enclosing}
    (h : Inside c .base true (tabLevels level) (branchHead false condition ++ '\n' :: following))
    (hc : ConditionWritable condition)
    (ha : a.around = .conditional line branches branchLine (some previous) before :: around) :
    ∃ n found, erasedCondition found = erasedCondition condition ∧
      c.ReadsLine a level following
        ⟨[], .conditional line (branches ++ [.mk branchLine (some previous) a.block]) n found
          before :: around, a.levels⟩ := by
  cases condition with
  | none =>
    have hs : Sealed "else".toList := (tidy_of_not_mem _ (by decide) (by decide) (by decide)).toSealed
    obtain ⟨first, second, ht, hread⟩ := Inside.reads_command h hs
    have hd := readDirective_else first.position.line second ht
    refine ⟨first.position.line, none, rfl, hread a _ _ hd ?_⟩
    simp [Assembly.add, Directive.item, Assembly.clause, ha]
  | some condition =>
    have hw := hc condition rfl
    have hs := sealed_command_expr "elseif ".toList condition hw (by decide) (by decide) (by decide)
    rw [branchHead_elseif] at h
    obtain ⟨first, second, ht, hread⟩ := h.reads_command hs
    have hd := readDirective_elseif first.position.line second condition hw.spellable hw.finite ht
    refine ⟨first.position.line, some (condition.atLine second.position.line), ?_,
      hread a _ _ hd ?_⟩
    · simp only [erasedCondition, Option.map_some, erased_atLine]
    · simp [Assembly.add, Directive.item, Assembly.clause, ha]

theorem Inside.reads_endif {a : Assembly} {line branchLine : Nat} {branches : List Branch}
    {condition : Option Expr} {before : List Statement} {around : List Enclosing}
    (h : Inside c .base true (tabLevels level) ("<<endif>>\n".toList ++ following))
    (ha : a.around = .conditional line branches branchLine condition before :: around) :
    c.ReadsLine a level following
      ⟨before ++ [.conditional line (branches ++ [.mk branchLine condition a.block])], around,
        a.levels⟩ := by
  have hs : Sealed "endif".toList := (tidy_of_not_mem _ (by decide) (by decide) (by decide)).toSealed
  obtain ⟨first, second, ht, hread⟩ := Inside.reads_command h hs
  have hd := readDirective_endif first.position.line second ht
  refine hread a _ _ hd ?_
  simp [Assembly.add, Directive.item, Assembly.clause, ha]

theorem Inside.reads_link {content : List Char} (line : Nat)
    (h : Inside c .base true (tabLevels level)
      ('[' :: '[' :: content ++ ']' :: ']' :: '\n' :: following))
    (hp : Text.Phrase content) (ho : OptionText content) (hl : content.getLast? ≠ some ']') :
    c.ReadsStatement level following (.link line (String.ofList content)) := by
  obtain ⟨first, second, third, d, hw, hk1, hk2, ht, hk3, hi⟩ := h.link ho hl
  refine ⟨.link first.position.line (String.ofList content), rfl, fun a => ?_⟩
  refine ⟨[first, second, third], d, false, hw, hi, fun e newline rest hn => ?_⟩
  have hitem := readItem_link e rest hk1 hk2 ht hk3 hn hp
  exact (Assembly.read_item hitem rfl).trans (Assembly.read_newline e rest _ hn)

theorem conditionChars_some (condition : Expr) (rest : List Char) :
    conditionChars (some condition) ++ rest =
      ' ' :: ('<' :: '<' :: ("if ".toList ++ condition.chars) ++ '>' :: '>' :: rest) := by
  unfold conditionChars
  rw [List.append_assoc, List.append_assoc]
  rfl

theorem Inside.condition {condition : Expr} {lineStart : Bool} {levels : List Nat}
    {rest : List Char}
    (h : Inside c .base lineStart levels
      ('<' :: '<' :: ("if ".toList ++ condition.chars) ++ '>' :: '>' :: rest))
    (hc : condition.Writable) :
    ∃ first second third d, Walks c [first, second, third] d ∧
      ConditionTokens condition first second third ∧ Inside d .base false levels rest := by
  have hs := sealed_command_expr "if ".toList condition hc (by decide) (by decide) (by decide)
  obtain ⟨first, second, third, d, hw, hk1, hk2, ht, hk3, hi⟩ := h.command hs
  exact ⟨first, second, third, d, hw, ⟨hk1, hk2, ht, hk3⟩, hi⟩

/-- The tokens in front of a line break are a condition, up to its lines. -/
def ReadsCondition (ts : List Token) (condition : Option Expr) : Prop :=
  ∃ found, erasedCondition found = erasedCondition condition ∧
    ∀ newline rest, newline.kind = .newline →
      trailingCondition (ts ++ newline :: rest) = .ok (found, ts.length)

theorem readsCondition_nil : ReadsCondition [] none :=
  ⟨none, rfl, fun newline rest hn =>
    trailingCondition_none (isBlankText_of_newline hn) (by rw [hn]; decide)⟩

theorem readsCondition_some {condition : Expr} {lead : List Token} {first second third : Token}
    (hlead : lead = [] ∨ ∃ blank, lead = [blank] ∧ blank.isBlankText = true)
    (h : ConditionTokens condition first second third) (hc : condition.Writable) :
    ReadsCondition (lead ++ [first, second, third]) (some condition) := by
  refine ⟨some (condition.atLine second.position.line), ?_, fun newline rest hn => ?_⟩
  · simp only [erasedCondition, Option.map_some, erased_atLine]
  · rw [List.append_assoc, List.length_append]
    exact trailingCondition_some hlead h hc.spellable hc.finite (endsLine_of_newline rest hn)

theorem Inside.blank {levels : List Nat} {rest : List Char}
    (h : Inside c .base false levels (' ' :: '<' :: '<' :: rest)) :
    ∃ t d, Walks c [t] d ∧ t.isBlankText = true ∧ Inside d .base false levels ('<' :: '<' :: rest) := by
  have hlen : Mode.base.textLength ([' '] ++ '<' :: '<' :: rest) = [' '].length := by
    rw [List.singleton_append, Mode.textLength_blank .base rfl, Mode.textLength_of_stopsText _ _ rfl]
    rfl
  have h' : Inside c .base false levels ([' '] ++ '<' :: '<' :: rest) := h
  obtain ⟨t, d, hw, hk, ht, hi⟩ := h'.text (by decide) (by simp) (by simp) hlen
  refine ⟨t, d, hw, ?_, hi⟩
  rw [Token.isBlankText, hk, ht]
  decide

theorem Inside.reads_condition {condition : Option Expr} {levels : List Nat}
    (h : Inside c .base false levels (conditionChars condition ++ '\n' :: following))
    (hc : ConditionWritable condition) :
    ∃ ts d, Walks c ts d ∧ ReadsCondition ts condition ∧
      Inside d .base false levels ('\n' :: following) := by
  cases condition with
  | none => exact ⟨[], c, .nil c, readsCondition_nil, h⟩
  | some condition =>
    have hw := hc condition rfl
    rw [conditionChars_some] at h
    obtain ⟨blank, d, hwalk, hb, hi⟩ := h.blank
    obtain ⟨first, second, third, f, hwalk', htokens, hi'⟩ := Inside.condition hi hw
    exact ⟨_, f, hwalk.trans hwalk', readsCondition_some (.inr ⟨_, rfl, hb⟩) htokens hw, hi'⟩

theorem Inside.reads_option {label target : List Char} {condition : Option Expr} (line : Nat)
    (h : Inside c .base true (tabLevels level) ('[' :: '[' :: label ++ '|' :: target ++
      ']' :: ']' :: (conditionChars condition ++ '\n' :: following)))
    (hp : Text.Phrase label) (ho : OptionText label) (hne : target ≠ [])
    (ht : target.all Mode.isDestinationChar = true) (hc : ConditionWritable condition) :
    c.ReadsStatement level following
      (.option line (String.ofList label) (String.ofList target) condition) := by
  obtain ⟨first, second, third, fourth, fifth, d, hw, hk1, hk2, ht2, hk3, hk4, ht4, hk5, hi⟩ :=
    h.option ho hne ht
  obtain ⟨ts, f, hw', ⟨found, hfound, hcond⟩, hi'⟩ := hi.reads_condition hc
  refine ⟨.option first.position.line (String.ofList label) (String.ofList target) found, ?_,
    fun a => ?_⟩
  · simp only [erased, hfound]
  · refine ⟨[first, second, third, fourth, fifth] ++ ts, f, false, hw.trans hw', hi',
      fun e newline rest hn => ?_⟩
    have hitem := readItem_option e (ts ++ newline :: rest) hk1 hk2 ht2 hk3 hk4 ht4 hk5
      (hcond newline rest hn) hp (trim_destination ht)
    have hread := Assembly.read_item (a := a) hitem rfl
    have hdrop : (second :: third :: fourth :: fifth :: (ts ++ newline :: rest)).drop
        (4 + ts.length) = newline :: rest := by
      rw [Nat.add_comm]
      simp
    rw [hdrop] at hread
    exact hread.trans (Assembly.read_newline e rest _ hn)

theorem Inside.reads_label {label : List Char} {condition : Option Expr} {levels : List Nat}
    (h : Inside c .base false levels
      (' ' :: label ++ (conditionChars condition ++ '\n' :: following)))
    (hp : Text.Phrase label) (hl : Mode.LabelText label) (hc : ConditionWritable condition) :
    ∃ t ts d, Walks c (t :: ts) d ∧ t.kind = .text ∧ Text.trim t.text = label ∧
      ReadsCondition ts condition ∧ Inside d .base false levels ('\n' :: following) := by
  cases condition with
  | none =>
    obtain ⟨t, d, hw, hk, ht, hi⟩ := h.text (by decide) (by simp) (by simp)
      (Mode.textLength_label label following hl)
    exact ⟨t, [], d, hw, hk, by rw [ht, hp.trim_space], readsCondition_nil, hi⟩
  | some condition =>
    have hw := hc condition rfl
    rw [conditionChars_some] at h
    have h' : Inside c .base false levels ((' ' :: label ++ [' ']) ++ '<' :: '<' ::
        (("if ".toList ++ condition.chars) ++ '>' :: '>' :: '\n' :: following)) := by
      rw [List.append_assoc]
      exact h
    obtain ⟨t, d, hwalk, hk, ht, hi⟩ := h'.text (by decide) (by simp) (by simp)
      (Mode.textLength_label_condition label _ hl)
    obtain ⟨first, second, third, f, hwalk', htokens, hi'⟩ := Inside.condition hi hw
    exact ⟨t, [first, second, third], f, hwalk.trans hwalk', hk, by rw [ht, hp.trim_spaces],
      readsCondition_some (.inl rfl) htokens hw, hi'⟩

section

variable {label : List Char} {condition : Option Expr} {a : Assembly} {indent : Nat}
  {line : List Char}

/-- The line of a shortcut option is read as soon as it shows whether a body follows. -/
theorem Inside.reads_shortcut
    (h : Inside c .base true (tabLevels level)
      ('-' :: '>' :: ' ' :: label ++ (conditionChars condition ++ '\n' :: following)))
    (hp : Text.Phrase label) (hl : Mode.LabelText label) (hc : ConditionWritable condition) :
    ∃ n found ts d, erasedCondition found = erasedCondition condition ∧ Walks c ts d ∧
      Inside d .base false (tabLevels level) ('\n' :: following) ∧
      ∀ (e : BodyEnd) (newline next : Token) (rest : List Token), newline.kind = .newline →
        a.read e (ts ++ newline :: next :: rest) =
          if next.kind = .indent then
            (⟨[], .shortcut n (String.ofList label) found a.block :: a.around,
              .shortcut :: a.levels⟩ : Assembly).read e rest
          else (a.push (.shortcut n (String.ofList label) found [])).read e (next :: rest) := by
  obtain ⟨marker, c1, hw1, hk1, h1⟩ := h.arrow
  obtain ⟨t, ts, c2, hw2, hk2, ht2, ⟨found, hfound, hcond⟩, h2⟩ := Inside.reads_label h1 hp hl hc
  refine ⟨marker.position.line, found, _, c2, hfound, hw1.trans hw2, h2,
    fun e newline next rest hn => ?_⟩
  have hitem := readItem_shortcut e ts rest hk1 hk2 ht2 hp.ne_nil
    (hcond newline (next :: rest) hn) hn
  split
  · rename_i hi
    rw [if_pos hi] at hitem
    have hread := Assembly.read_item (a := a) hitem rfl
    have hdrop : (t :: (ts ++ newline :: next :: rest)).drop (ts.length + 3) = rest := by
      rw [List.drop_succ_cons]
      simp
    rw [hdrop] at hread
    exact hread
  · rename_i hi
    rw [if_neg hi] at hitem
    have hread := Assembly.read_item (a := a) hitem rfl
    have hdrop : (t :: (ts ++ newline :: next :: rest)).drop (ts.length + 2) = next :: rest := by
      rw [List.drop_succ_cons]
      simp
    rw [hdrop] at hread
    exact hread

theorem Inside.leads_shortcut
    (h : Inside c .base true (tabLevels level)
      ('-' :: '>' :: ' ' :: label ++ (conditionChars condition ++ '\n' :: following)))
    (hp : Text.Phrase label) (hl : Mode.LabelText label) (hc : ConditionWritable condition)
    (hn : Next indent line following) (hle : indent ≤ level) :
    ∃ d n found, erasedCondition found = erasedCondition condition ∧
      Place.Leads ⟨c, a⟩ ⟨d, a.push (.shortcut n (String.ofList label) found [])⟩ ∧
      Between d indent (level - indent) line := by
  obtain ⟨n, found, ts, c1, hfound, hw, hi, hread⟩ := h.reads_shortcut hp hl hc
  obtain ⟨newline, d, hw', hk, hb⟩ := hi.newline_close hn hle
  refine ⟨d, n, found, hfound, ?_, hb⟩
  refine Place.leads_of_walks (hw.trans hw') fun e rest hr => ?_
  obtain ⟨next, rest', rfl, hnext⟩ := hb.tokens?_cons hr
  rw [List.append_assoc]
  exact (hread e newline next rest' hk).trans (if_neg hnext)

theorem Inside.leads_shortcut_body
    (h : Inside c .base true (tabLevels level)
      ('-' :: '>' :: ' ' :: label ++ (conditionChars condition ++ '\n' :: following)))
    (hp : Text.Phrase label) (hl : Mode.LabelText label) (hc : ConditionWritable condition)
    (hn : Next (level + 1) line following) :
    ∃ d n found, erasedCondition found = erasedCondition condition ∧
      Place.Leads ⟨c, a⟩ ⟨d, ⟨[], .shortcut n (String.ofList label) found a.block :: a.around,
        .shortcut :: a.levels⟩⟩ ∧ Between d (level + 1) 0 line := by
  obtain ⟨n, found, ts, c1, hfound, hw, hi, hread⟩ := h.reads_shortcut hp hl hc
  obtain ⟨newline, u, d, hw', hk, hu, hb⟩ := hi.newline_open hn
  refine ⟨d, n, found, hfound, ?_, hb⟩
  refine Place.leads_of_walks (hw.trans hw') fun e rest hr => ?_
  rw [List.append_assoc]
  exact (hread e newline u rest hk).trans (if_pos hu)

end

end

end Cursor

end Dialogue
