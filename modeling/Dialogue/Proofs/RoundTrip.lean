import Dialogue.Proofs.Lines

/-!
# Writing statements and reading them back

The canonical text of well-formed statements is read as the same statements, with
other lines noted in them (`ofBody_formatBody`). The argument follows the printer:
the lines of a statement lead from the place in front of them to the place behind
them, with the statement added. Bodies of shortcut options and of branches stand one
level deeper, and the marker of their closed level belongs to the option or to
nobody.
-/

namespace Dialogue

open Cursor Place

theorem Cursor.Next.start_eq {level : Nat} {start rest : List Char}
    (h : Next level start (Statement.tabs level ++ rest)) : start = rest :=
  (List.append_cancel_left h.eq_append).symm

theorem Rules.printable_of_wellFormed :
    Rules.wellFormed.Entails Rules.wellFormed Rules.printable where
  text _ h _ := h
  link _ h _ := h
  label _ h _ := h
  destination _ h _ := h
  shortcut cs h _ := by
    simp only [Rules.wellFormed, Bool.and_eq_true, Bool.not_eq_true'] at h
    have hp := (Text.phrase_iff_isPhrase cs).2 h.1.1
    have hu := Mode.unbroken_base cs hp.newline h.1.2 h.2
    simp [Rules.printable, h.1.1, Mode.textLength_of_unbroken _ _ hu]
  command _ h _ := h
  target _ h _ := h
  leaf _ h _ := h
  branches _ h _ := h

namespace Statement

theorem writable_of_meets (e : Expr) (h : e.meets .printable = true) : e.Writable := by
  have hleaf := List.all_eq_true.1 h
  simp only [Rules.printable, Rules.wellFormed, Bool.and_eq_true] at hleaf
  exact ⟨List.all_eq_true.2 fun t ht => (hleaf t ht).1.1,
    List.all_eq_true.2 fun t ht => (hleaf t ht).1.2, List.all_eq_true.2 fun t ht => (hleaf t ht).2⟩

theorem conditionWritable_of_meets {condition : Option Expr}
    (h : conditionMeets .printable condition = true) : ConditionWritable condition := by
  rintro e rfl
  exact writable_of_meets e h

theorem optionText_of_label {cs : List Char} (h : Rules.printable.label cs = true) :
    Text.Phrase cs ∧ OptionText cs := by
  simp only [Rules.printable, Rules.wellFormed, Bool.and_eq_true, Bool.not_eq_true',
    List.contains_eq_mem, decide_eq_false_iff_not] at h
  have hp := (Text.phrase_iff_isPhrase cs).2 h.1.1
  exact ⟨hp, hp.ne_nil, hp.newline, h.1.2, h.2⟩

theorem optionText_of_link {cs : List Char} (h : Rules.printable.link cs = true) :
    Text.Phrase cs ∧ OptionText cs ∧ cs.getLast? ≠ some ']' := by
  have hl : cs.getLast? ≠ some ']' := by
    simp only [Rules.printable, Rules.wellFormed, Bool.and_eq_true, bne_iff_ne] at h
    exact h.2
  have ho : Rules.printable.label cs = true := by
    simp only [Rules.printable, Rules.wellFormed, Bool.and_eq_true] at h ⊢
    exact h.1
  exact ⟨(optionText_of_label ho).1, (optionText_of_label ho).2, hl⟩

theorem labelText_of_shortcut {cs : List Char} (h : Rules.printable.shortcut cs = true) :
    Text.Phrase cs ∧ Mode.LabelText cs := by
  simp only [Rules.printable, Bool.and_eq_true, beq_iff_eq] at h
  have hp := (Text.phrase_iff_isPhrase cs).2 h.1
  exact ⟨hp, hp.newline, hp.last_ne '\r' (by decide), h.2⟩

theorem sealed_of_command {cs : List Char} (h : Rules.printable.command cs = true) :
    Text.Phrase cs ∧ Sealed cs ∧ isDirective cs = false := by
  simp only [Rules.printable, Rules.wellFormed, Bool.and_eq_true, bne_iff_ne,
    Bool.not_eq_true'] at h
  have hp := (Text.phrase_iff_isPhrase cs).2 h.1.1.1
  exact ⟨hp, ⟨hp.ne_nil, hp.newline, h.1.1.2, h.1.2⟩, h.2⟩

section

variable {r : Rules} (htext : ∀ cs, r.text cs = true → Text.Phrase cs)
  (hbranches : r.branches [] = false)

include htext in
theorem beginsLine_escape {cs : List Char} (h : r.text cs = true) (rest : List Char) :
    BeginsLine (Prose.escape cs ++ rest) := by
  have hp := htext cs h
  obtain ⟨c, ds, hc⟩ := List.exists_cons_of_ne_nil (Mode.escape_ne_nil cs hp.ne_nil)
  refine ⟨c, ds ++ rest, by rw [hc]; rfl, ?_⟩
  refine Text.first_of_trim_eq (phrase_escape hp) c ?_
  rw [hc]
  rfl

theorem beginsLine_bracket (rest : List Char) : BeginsLine ('<' :: rest) :=
  ⟨'<', rest, rfl, by decide⟩

theorem beginsLine_branchHead (first : Bool) (condition : Option Expr) (rest : List Char) :
    BeginsLine (branchHead first condition ++ rest) := by
  cases condition with
  | none => exact beginsLine_bracket _
  | some e =>
    cases first with
    | true =>
      rw [branchHead_if]
      exact beginsLine_bracket _
    | false =>
      rw [branchHead_elseif]
      exact beginsLine_bracket _

include htext hbranches

theorem next_chars (level : Nat) (s : Statement) (h : s.meets r = true) (rest : List Char) :
    ∃ start, BeginsLine start ∧ Next level start (s.chars level ++ rest) := by
  have hnext (content : List Char) (hb : BeginsLine content) :
      ∃ start, BeginsLine start ∧ Next level start (tabs level ++ content) :=
    ⟨content, hb, .line level content hb⟩
  cases s with
  | text _ content =>
    simp only [chars, List.append_assoc]
    exact hnext _ (beginsLine_escape htext h _)
  | link _ destination =>
    simp only [chars, List.append_assoc]
    exact hnext _ ⟨'[', _, rfl, by decide⟩
  | option _ label destination condition =>
    simp only [chars, List.append_assoc]
    exact hnext _ ⟨'[', _, rfl, by decide⟩
  | shortcut _ label condition body =>
    simp only [chars, List.append_assoc]
    exact hnext _ ⟨'-', _, rfl, by decide⟩
  | conditional _ branches =>
    simp only [chars, List.append_assoc]
    cases branches with
    | nil =>
      rw [meets, List.map_nil, hbranches] at h
      cases h
    | cons branch branches =>
      obtain ⟨n, condition, body⟩ := branch
      simp only [branchesChars, if_true, List.nil_append, List.append_assoc]
      exact hnext _ (beginsLine_branchHead true condition _)
  | assignment _ target op value =>
    simp only [chars, List.append_assoc]
    exact hnext _ (beginsLine_bracket _)
  | command _ content =>
    simp only [chars, List.append_assoc]
    exact hnext _ (beginsLine_bracket _)

theorem next_blockChars (level : Nat) (ss : List Statement) (hne : ss ≠ [])
    (h : blockMeets r ss = true) (rest : List Char) :
    ∃ start, BeginsLine start ∧ Next level start (blockChars level ss ++ rest) := by
  obtain ⟨s, ss, rfl⟩ := List.exists_cons_of_ne_nil hne
  rw [blockMeets, Bool.and_eq_true] at h
  rw [blockChars, List.append_assoc]
  exact next_chars htext hbranches level s h.1 _

end

theorem printable_text (cs : List Char) (h : Rules.printable.text cs = true) : Text.Phrase cs :=
  (Text.phrase_iff_isPhrase cs).2 h

/-! ### Lines that are read back -/

/-- The lines of a statement lead behind them, with the statement added. -/
def Reads (level : Nat) (s : Statement) : Prop :=
  ∀ (a : Assembly) (c : Cursor) (start line following : List Char) (indent : Nat),
    Next level start (s.chars level ++ following) → Between c level 0 start →
    Next indent line following → indent ≤ level →
    ∃ d s', s'.erased = s.erased ∧ Leads ⟨c, a⟩ ⟨d, a.push s'⟩ ∧
      Between d indent (level - indent) line

def BlockReads (level : Nat) (ss : List Statement) : Prop :=
  ∀ (a : Assembly) (c : Cursor) (start line following : List Char) (indent : Nat),
    Next level start (blockChars level ss ++ following) → Between c level 0 start →
    Next indent line following → indent ≤ level →
    ∃ d ss', erasedBlock ss' = erasedBlock ss ∧
      Leads ⟨c, a⟩ ⟨d, { a with block := a.block ++ ss' }⟩ ∧
      Between d indent (level - indent) line

/-- The lines of the branches behind the one being read lead to the end of the conditional,
with the branches added. -/
def BranchesRead (level : Nat) (bs : List Branch) : Prop :=
  ∀ (a : Assembly) (c : Cursor) (start line following : List Char) (indent : Nat)
    (n branchLine : Nat) (finished : List Branch) (condition : Option Expr)
    (before : List Statement) (around : List Enclosing),
    a.around = .conditional n finished branchLine condition before :: around →
    (condition.isSome :: bs.map fun b => b.condition.isSome).dropLast.all id = true →
    Next level start
      (branchesChars level false bs ++ (tabs level ++ ("<<endif>>\n".toList ++ following))) →
    Between c level 0 start → Next indent line following → indent ≤ level →
    ∃ d bs', erasedBranches bs' = erasedBranches bs ∧
      Leads ⟨c, a⟩ ⟨d, ⟨before ++ [.conditional n
        (finished ++ .mk branchLine condition a.block :: bs')], around, a.levels⟩⟩ ∧
      Between d indent (level - indent) line

theorem reads_of_readsStatement {level : Nat} {s : Statement} (content : List Char)
    (hs : ∀ following, s.chars level ++ following = tabs level ++ (content ++ '\n' :: following))
    (h : ∀ c following, Inside c .base true (tabLevels level) (content ++ '\n' :: following) →
      c.ReadsStatement level following s) : Reads level s := by
  intro a c start line following indent hstart hb hn hle
  rw [hs] at hstart
  have he := hstart.start_eq
  subst he
  obtain ⟨s', hs', hread⟩ := h c following (hb.inside (by simp))
  obtain ⟨d, hl, hd⟩ := (hread a).close hn hle
  exact ⟨d, s', hs', hl, hd⟩

theorem inside_shortcut {level n : Nat} {label : String} {condition : Option Expr}
    {body : List Statement} {c : Cursor} {start following : List Char}
    (hstart : Next level start
      ((Statement.shortcut n label condition body).chars level ++ following))
    (hb : Between c level 0 start) :
    Inside c .base true (tabLevels level) ('-' :: '>' :: ' ' :: label.toList ++
      (conditionChars condition ++ '\n' :: (blockChars (level + 1) body ++ following))) := by
  simp only [chars, List.append_assoc] at hstart
  have he := hstart.start_eq
  subst he
  simpa using hb.inside (by simp)

theorem reads_shortcut {level n : Nat} {label : String} {condition : Option Expr}
    {body : List Statement} (hlabel : Rules.printable.shortcut label.toList = true)
    (hc : conditionMeets .printable condition = true)
    (hbody : blockMeets .printable body = true)
    (h : body ≠ [] → BlockReads (level + 1) body) :
    Reads level (.shortcut n label condition body) := by
  intro a c start line following indent hstart hb hn hle
  obtain ⟨hp, hl⟩ := labelText_of_shortcut hlabel
  have hw := conditionWritable_of_meets hc
  have hi := inside_shortcut hstart hb
  by_cases hne : body = []
  · subst hne
    obtain ⟨d, m, found, hfound, hleads, hd⟩ :=
      Inside.leads_shortcut (a := a) hi hp hl hw hn hle
    refine ⟨d, _, ?_, hleads, hd⟩
    simp only [erased, hfound, String.ofList_toList]
  · obtain ⟨start', _, hnext⟩ := next_blockChars printable_text rfl (level + 1) body hne hbody following
    obtain ⟨d, m, found, hfound, hleads, hd⟩ :=
      Inside.leads_shortcut_body (a := a) hi hp hl hw hnext
    obtain ⟨f, body', hbody', hleads', hf⟩ :=
      h hne ⟨[], .shortcut m (String.ofList label.toList) found a.block :: a.around,
        .shortcut :: a.levels⟩ d start' line following indent hnext hd hn (by omega)
    have hclosing : level + 1 - indent = level - indent + 1 := by omega
    rw [hclosing] at hf
    obtain ⟨g, hleads'', hg⟩ := hf.leads_shortcut
    refine ⟨g, _, ?_, hleads.trans (hleads'.trans hleads''), hg⟩
    simp only [erased, hfound, List.nil_append, hbody', String.ofList_toList]

theorem leads_branch_body {level : Nat} {body : List Statement} {c : Cursor} {a b : Assembly}
    {line following : List Char} (hbody : blockMeets .printable body = true)
    (h : body ≠ [] → BlockReads (level + 1) body)
    (hread : c.ReadsLine a level (blockChars (level + 1) body ++ following) b)
    (hb : b.block = []) (hn : Next level line following) :
    ∃ d body', erasedBlock body' = erasedBlock body ∧
      Leads ⟨c, a⟩ ⟨d, { b with block := body' }⟩ ∧ Between d level 0 line := by
  obtain ⟨block, around, levels⟩ := b
  subst hb
  by_cases hne : body = []
  · subst hne
    obtain ⟨d, hleads, hd⟩ := hread.close hn (Nat.le_refl level)
    rw [Nat.sub_self] at hd
    exact ⟨d, [], rfl, hleads, hd⟩
  · obtain ⟨start, _, hnext⟩ := next_blockChars printable_text rfl (level + 1) body hne hbody following
    obtain ⟨d, hleads, hd⟩ := hread.deepen hnext
    obtain ⟨f, body', hbody', hleads', hf⟩ := h hne ⟨[], around, .plain :: levels⟩ d start
      line following level hnext hd hn (by omega)
    have hclosing : level + 1 - level = 0 + 1 := by omega
    rw [hclosing] at hf
    obtain ⟨g, hleads'', hg⟩ := hf.leads_plain
    exact ⟨g, body', hbody', hleads.trans (hleads'.trans hleads''), hg⟩

theorem next_branches {level : Nat} (bs : List Branch) (following : List Char) :
    ∃ start, Next level start
      (branchesChars level false bs ++ (tabs level ++ ("<<endif>>\n".toList ++ following))) := by
  cases bs with
  | nil => exact ⟨_, .line level _ (beginsLine_bracket _)⟩
  | cons branch branches =>
    obtain ⟨n, condition, body⟩ := branch
    simp only [branchesChars, Bool.false_eq_true, if_false, List.append_assoc]
    exact ⟨_, .line level _ (beginsLine_branchHead false condition _)⟩

theorem branchesRead_nil (level : Nat) : BranchesRead level [] := by
  intro a c start line following indent n branchLine finished condition before around ha _
    hstart hb hn hle
  have he := hstart.start_eq
  subst he
  obtain ⟨d, hleads, hd⟩ := (Inside.reads_endif (hb.inside (by simp)) ha).close hn hle
  exact ⟨d, [], rfl, hleads, hd⟩

theorem isSome_of_erasedCondition {found condition : Option Expr}
    (h : erasedCondition found = erasedCondition condition) : found.isSome = condition.isSome := by
  have hm := congrArg Option.isSome h
  simpa [erasedCondition] using hm

theorem inside_branch {level n : Nat} {condition previous : Option Expr} {body : List Statement}
    {bs : List Branch} {c : Cursor} {start following : List Char}
    (hheads : (previous.isSome :: (Branch.mk n condition body :: bs).map
      fun b => b.condition.isSome).dropLast.all id = true)
    (hstart : Next level start (branchesChars level false (.mk n condition body :: bs) ++
      (tabs level ++ ("<<endif>>\n".toList ++ following))))
    (hb : Between c level 0 start) :
    (∃ e, previous = some e) ∧
      (condition.isSome :: bs.map fun b => b.condition.isSome).dropLast.all id = true ∧
      Inside c .base true (tabLevels level) (branchHead false condition ++ '\n' ::
        (blockChars (level + 1) body ++ (branchesChars level false bs ++
          (tabs level ++ ("<<endif>>\n".toList ++ following))))) := by
  -- Behind a branch without a condition no branch could follow.
  rw [List.map_cons, List.dropLast_cons_cons, List.all_cons, Bool.and_eq_true] at hheads
  simp only [branchesChars, Bool.false_eq_true, if_false, List.append_assoc] at hstart
  have he := hstart.start_eq
  subst he
  exact ⟨Option.isSome_iff_exists.1 hheads.1, hheads.2, by simpa using hb.inside (by simp)⟩

theorem branchesRead_cons {level n : Nat} {condition : Option Expr} {body : List Statement}
    {bs : List Branch} (hc : conditionMeets .printable condition = true)
    (hbody : blockMeets .printable body = true) (h : body ≠ [] → BlockReads (level + 1) body)
    (hbs : BranchesRead level bs) : BranchesRead level (.mk n condition body :: bs) := by
  intro a c start line following indent m branchLine finished previous before around ha hheads
    hstart hb hn hle
  obtain ⟨⟨e, rfl⟩, hheads, hi⟩ := inside_branch hheads hstart hb
  obtain ⟨k, found, hfound, hread⟩ := hi.reads_clause (conditionWritable_of_meets hc) ha
  obtain ⟨start', hnext⟩ := next_branches bs following
  obtain ⟨d, body', hbody', hleads, hd⟩ := leads_branch_body hbody h hread rfl hnext
  have hheads' : (found.isSome :: bs.map fun b => b.condition.isSome).dropLast.all id = true := by
    rw [isSome_of_erasedCondition hfound]
    exact hheads
  obtain ⟨f, bs', hbs', hleads', hf⟩ := hbs ⟨body', _, a.levels⟩ d start' line following indent m k
    _ found before around rfl hheads' hnext hd hn hle
  refine ⟨f, .mk k found body' :: bs', ?_, ?_, hf⟩
  · simp only [erasedBranches, hfound, hbody', hbs']
  · simpa using hleads.trans hleads'

theorem inside_conditional {level n m : Nat} {e : Expr} {body : List Statement}
    {bs : List Branch} {c : Cursor} {start following : List Char}
    (hstart : Next level start
      ((Statement.conditional n (.mk m (some e) body :: bs)).chars level ++ following))
    (hb : Between c level 0 start) :
    Inside c .base true (tabLevels level) (branchHead true (some e) ++ '\n' ::
      (blockChars (level + 1) body ++ (branchesChars level false bs ++
        (tabs level ++ ("<<endif>>\n".toList ++ following))))) := by
  simp only [chars, branchesChars, if_true, List.nil_append, List.append_assoc] at hstart
  have he := hstart.start_eq
  subst he
  simpa using hb.inside (by simp)

theorem reads_conditional {level n m : Nat} {condition : Option Expr} {body : List Statement}
    {bs : List Branch} (hcondition : condition.isSome = true)
    (hheads : (condition.isSome :: bs.map fun b => b.condition.isSome).dropLast.all id = true)
    (hc : conditionMeets .printable condition = true)
    (hbody : blockMeets .printable body = true) (h : body ≠ [] → BlockReads (level + 1) body)
    (hbs : BranchesRead level bs) : Reads level (.conditional n (.mk m condition body :: bs)) := by
  intro a c start line following indent hstart hb hn hle
  obtain ⟨e, rfl⟩ := Option.isSome_iff_exists.1 hcondition
  obtain ⟨k, found, hfound, hread⟩ :=
    (inside_conditional hstart hb).reads_if a (writable_of_meets e hc)
  obtain ⟨start', hnext⟩ := next_branches bs following
  obtain ⟨d, body', hbody', hleads, hd⟩ := leads_branch_body hbody h hread rfl hnext
  obtain ⟨f, bs', hbs', hleads', hf⟩ := hbs ⟨body', _, a.levels⟩ d start' line following indent k
    k [] (some found) a.block a.around rfl hheads hnext hd hn hle
  refine ⟨f, .conditional k (.mk k (some found) body' :: bs'), ?_, hleads.trans hleads', hf⟩
  simp only [erased, erasedBranches, hfound, hbody', hbs']

theorem blockReads_cons {level : Nat} {s : Statement} {ss : List Statement} (hs : Reads level s)
    (hss : blockMeets .printable ss = true) (h : ss ≠ [] → BlockReads level ss) :
    BlockReads level (s :: ss) := by
  intro a c start line following indent hstart hb hn hle
  rw [blockChars, List.append_assoc] at hstart
  by_cases hne : ss = []
  · subst hne
    obtain ⟨d, s', hs', hleads, hd⟩ := hs a c start line following indent hstart hb hn hle
    exact ⟨d, [s'], by simp only [erasedBlock, hs'], hleads, hd⟩
  · obtain ⟨start', _, hnext⟩ := next_blockChars printable_text rfl level ss hne hss following
    obtain ⟨d, s', hs', hleads, hd⟩ :=
      hs a c start start' (blockChars level ss ++ following) level hstart hb hnext (Nat.le_refl level)
    rw [Nat.sub_self] at hd
    obtain ⟨f, ss', hss', hleads', hf⟩ :=
      h hne (a.push s') d start' line following indent hnext hd hn hle
    refine ⟨f, s' :: ss', by simp only [erasedBlock, hs', hss'], ?_, hf⟩
    simpa [Assembly.push] using hleads.trans hleads'

mutual

theorem reads (level : Nat) : ∀ s : Statement, s.meets .printable = true → Reads level s
  | .text n content, h =>
    reads_of_readsStatement (Prose.escape content.toList) (by simp [chars])
      fun c following hi => by
        simpa using hi.reads_text n (printable_text _ h)
  | .link n destination, h =>
    reads_of_readsStatement ('[' :: '[' :: destination.toList ++ [']', ']'])
      (by simp [chars]) fun c following hi => by
        obtain ⟨hp, ho, hl⟩ := optionText_of_link h
        simpa using Inside.reads_link n (by simpa using hi) hp ho hl
  | .option n label destination condition, h =>
    reads_of_readsStatement ('[' :: '[' :: label.toList ++ '|' :: destination.toList ++
        ']' :: ']' :: conditionChars condition)
      (by simp [chars]) fun c following hi => by
        simp only [meets, Bool.and_eq_true] at h
        obtain ⟨hp, ho⟩ := optionText_of_label h.1.1
        have hd : destination.toList ≠ [] ∧ destination.toList.all Mode.isDestinationChar = true := by
          simpa [Rules.printable, Rules.wellFormed, Rules.isDestination] using h.1.2
        simpa using Inside.reads_option n (by simpa using hi) hp ho hd.1 hd.2
          (conditionWritable_of_meets h.2)
  | .shortcut n label condition body, h => by
    simp only [meets, Bool.and_eq_true] at h
    exact reads_shortcut h.1.1 h.1.2 h.2 fun hne => blockReads (level + 1) body h.2 hne
  | .conditional _ [], h => by cases h
  | .conditional n (.mk m condition body :: bs), h => by
    simp only [meets, branchesMeet, Bool.and_eq_true] at h
    obtain ⟨hheads, ⟨hc, hbody⟩, hbs⟩ := h
    have hfirst : condition.isSome = true ∧
        (condition.isSome :: bs.map fun b => b.condition.isSome).dropLast.all id = true := by
      simp only [Rules.printable, Rules.wellFormed, Rules.areBranches, Bool.and_eq_true,
        beq_iff_eq, List.map_cons, List.head?_cons, Option.some.injEq] at hheads
      exact hheads
    exact reads_conditional hfirst.1 hfirst.2 hc hbody
      (fun hne => blockReads (level + 1) body hbody hne) (branchesRead level bs hbs)
  | .assignment n target op value, h =>
    reads_of_readsStatement ('<' :: '<' ::
        ("set".toList ++ (assignmentLead target op ++ value.chars)) ++ ['>', '>'])
      (by simp [chars, assignmentLead]) fun c following hi => by
        simp only [meets, Bool.and_eq_true] at h
        exact Inside.reads_assignment n (by simpa using hi) h.1 (writable_of_meets value h.2)
  | .command n content, h =>
    reads_of_readsStatement ('<' :: '<' :: content.toList ++ ['>', '>'])
      (by simp [chars]) fun c following hi => by
        obtain ⟨hp, hs, hd⟩ := sealed_of_command h
        simpa using Inside.reads_plain_command n (by simpa using hi) hp hs hd

theorem blockReads (level : Nat) : ∀ ss : List Statement, blockMeets .printable ss = true →
    ss ≠ [] → BlockReads level ss
  | [], _, hne => absurd rfl hne
  | s :: ss, h, _ => by
    simp only [blockMeets, Bool.and_eq_true] at h
    exact blockReads_cons (reads level s h.1) h.2 fun hne => blockReads level ss h.2 hne

theorem branchesRead (level : Nat) : ∀ bs : List Branch, branchesMeet .printable bs = true →
    BranchesRead level bs
  | [], _ => branchesRead_nil level
  | .mk n condition body :: bs, h => by
    simp only [branchesMeet, Bool.and_eq_true] at h
    exact branchesRead_cons h.1.1 h.1.2 (fun hne => blockReads (level + 1) body h.1.2 hne)
      (branchesRead level bs h.2)

end

/-! ### Whole bodies -/

theorem ofBody_of_result {body : List Char} {ss : List Statement}
    (h : ∀ e, Place.result e ⟨.ofBody body, {}⟩ = some ss) : ofBody body = .ok ss := by
  unfold ofBody Body.tokenize
  cases ht : (Cursor.ofBody body).tokens? with
  | error err => simpa [Place.result, ht] using h ⟨.start⟩
  | ok tokens =>
    have hr := h (.ofTokens tokens)
    simp only [Place.result, ht] at hr
    simp only
    unfold ofTokens
    cases hread : Assembly.read (.ofTokens tokens) {} tokens with
    | error err => simp [hread, Except.toOption] at hr
    | ok found => simpa [hread, Except.toOption] using hr

theorem tokens?_start {c : Cursor} (hl : c.leadLength = 0) (ho : c.owed = []) :
    c.start.tokens? = c.tokens? := by
  have hl' : c.start.leadLength = 0 := rfl
  have ho' : c.start.owed = [] := ho
  have hs : c.start.start = c.start := by simp [start]
  have hstep : c.start.step = c.step := by
    unfold step
    rw [ho, ho']
    simp only
    rw [hl, hl', hs]
    rfl
  rw [Cursor.tokens?.eq_def c.start, Cursor.tokens?.eq_def c, hstep]
  rfl

theorem leads_ofBody {body : List Char} (h : BeginsLine body) (a : Assembly) :
    ∃ d, Leads ⟨.ofBody body, a⟩ ⟨d, a⟩ ∧ Between d 0 0 body := by
  have hne : body ≠ [] := by
    obtain ⟨c, rest, rfl, _⟩ := h
    exact List.cons_ne_nil _ _
  refine ⟨(Cursor.ofBody body).start, fun e => ?_, ?_⟩
  · have hlead : (Cursor.ofBody body).leadLength = 0 := h.blankLength
    unfold result
    simp only
    rw [tokens?_start hlead rfl]
  · exact ⟨rfl, rfl, rfl, rfl, rfl, Or.inl ⟨hne, rfl, rfl⟩⟩

theorem ofBody_nil : ofBody [] = .ok [] := by
  have hstep : (Cursor.ofBody []).step =
      ((Cursor.ofBody []).start.marker .endOfInput, (Cursor.ofBody []).start) := rfl
  have ht : (Cursor.ofBody []).tokens? = .ok [(Cursor.ofBody []).start.marker .endOfInput] := by
    rw [Cursor.tokens?, hstep, dif_neg (by simp [marker, TokenKind.isFinal]),
      if_neg (by simp [marker])]
  unfold ofBody Body.tokenize
  rw [ht]
  simp [ofTokens, Assembly.read, marker, Assembly.finish]

theorem ofBody_formatBody_of_printable (ss : List Statement)
    (h : blockMeets .printable ss = true) :
    ∃ ss', ofBody (formatBody ss).toList = .ok ss' ∧ erasedBlock ss' = erasedBlock ss := by
  rw [formatBody, String.toList_ofList]
  by_cases hne : ss = []
  · subst hne
    exact ⟨[], ofBody_nil, rfl⟩
  · obtain ⟨start, hbegins, hnext⟩ := next_blockChars printable_text rfl 0 ss hne h []
    have hstart : blockChars 0 ss = start := by simpa using hnext.eq_append
    obtain ⟨c, hleads, hc⟩ := leads_ofBody hbegins {}
    obtain ⟨d, ss', hss', hleads', hd⟩ :=
      blockReads 0 ss h hne {} c start [] [] 0 hnext hc .last (Nat.le_refl 0)
    obtain ⟨t, ht, hk⟩ := hd.tokens?
    rw [hstart]
    refine ⟨ss', ofBody_of_result fun e => ?_, hss'⟩
    rw [(hleads.trans hleads') e]
    simp [Place.result, ht, Assembly.read, hk, Assembly.finish, Except.toOption]

/-- The canonical text of well-formed statements is read as the same statements, up to the lines
noted in them. -/
theorem ofBody_formatBody (ss : List Statement) (h : blockMeets .wellFormed ss = true) :
    ∃ ss', ofBody (formatBody ss).toList = .ok ss' ∧ erasedBlock ss' = erasedBlock ss :=
  ofBody_formatBody_of_printable ss (blockMeets_of_entails Rules.printable_of_wellFormed ss h h)

/-- Statements whose texts hold what elsewhere is an arrow, a bracket or a quote. -/
def intricate : List Statement :=
  [.shortcut 1 "take < \\ it"
    (some (.binary 1 .gt (.call 1 "visited" [.literal 1 (.string "a > \"b\"\n")]) (.var 1 "n")))
    [.conditional 1
      [.mk 1 (some (.unary 1 .not (.var 1 "x"))) [.text 1 "-> [[not]] a <<link>> \\"],
        .mk 1 none []],
      .link 1 "end"],
    .option 1 "a]" "b.c" none, .assignment 1 "n" .add (.var 1 "n"), .command 1 "play > x"]

theorem ofBody_formatBody_intricate : blockMeets .wellFormed intricate = true ∧
    ∃ ss', ofBody (formatBody intricate).toList = .ok ss' ∧
      erasedBlock ss' = erasedBlock intricate := by
  have h : blockMeets .wellFormed intricate = true := by decide +kernel
  exact ⟨h, ofBody_formatBody intricate h⟩

end Statement

end Dialogue
