import Dialogue.Proofs.RoundTrip
import Dialogue.Proofs.Straying

/-!
# Which bodies survive their own canonical text

The statements of a body can be written and read back if and only if no link ends
with half a bracket, no command is empty or ends with half a bracket, and every
literal is finite and free of the bracket that ends a command (`rereads_iff_faithful`).
Everything else that a body can hold is written such that it is read back. In the
other direction the first offending line decides: what is written before it is read
back, and from there reading goes astray, whatever follows.
-/

namespace Dialogue

open Cursor Place

namespace Rules

/-- What the statements of a body have to be like to survive being written. -/
def faithful : Rules where
  link cs := cs.getLast? != some ']'
  command cs := cs != [] && cs.getLast? != some '>'
  leaf t := t.isFinite && t.isSealed

theorem printable_of_faithful : parsed.Entails faithful printable where
  text _ h _ := h
  link cs h h' := by
    simp only [parsed, faithful, printable, wellFormed, Bool.and_eq_true] at h h' ⊢
    exact ⟨h, h'⟩
  label _ h _ := h
  destination _ h _ := h
  shortcut _ h _ := h
  command cs h h' := by
    simp only [parsed, faithful, printable, wellFormed, Text.isPhrase, Bool.and_eq_true] at h h' ⊢
    obtain ⟨⟨⟨htrim, hn⟩, hd⟩, hdirective⟩ := h
    exact ⟨⟨⟨⟨⟨h'.1, htrim⟩, hn⟩, hd⟩, h'.2⟩, hdirective⟩
  target _ h _ := h
  leaf t h h' := by
    simp only [parsed, faithful, printable, wellFormed, Bool.and_eq_true] at h h' ⊢
    exact ⟨⟨h, h'.1⟩, h'.2⟩
  branches _ h _ := h

end Rules

namespace Expr

theorem precedence_atLine (n : Nat) (e : Expr) : (e.atLine n).precedence = e.precedence := by
  cases e <;> rfl

mutual

theorem chars_atLine (n : Nat) : ∀ e : Expr, (e.atLine n).chars = e.chars
  | .literal _ _ => rfl
  | .var _ _ => rfl
  | .call _ name args => by rw [atLine, chars, chars, argumentChars_argumentsAtLine n args]
  | .unary _ op operand => by
    rw [atLine, chars, chars, precedence_atLine n operand, chars_atLine n operand]
  | .binary _ op left right => by
    rw [atLine, chars, chars, precedence_atLine n left, precedence_atLine n right,
      chars_atLine n left, chars_atLine n right]

theorem argumentChars_argumentsAtLine (n : Nat) : ∀ es : List Expr,
    argumentChars (argumentsAtLine n es) = argumentChars es
  | [] => rfl
  | [e] => by
    simp only [argumentsAtLine, argumentChars]
    exact chars_atLine n e
  | e :: e' :: es => by
    have ih := argumentChars_argumentsAtLine n (e' :: es)
    simp only [argumentsAtLine, argumentChars] at ih ⊢
    rw [chars_atLine n e, ih]

end

end Expr

namespace Statement

theorem parsed_text (cs : List Char) (h : Rules.parsed.text cs = true) : Text.Phrase cs :=
  (Text.phrase_iff_isPhrase cs).2 h

theorem not_finite_or_not_unbroken (e : Expr) (h : e.meets .faithful = false) :
    e.finite = false ∨ e.unbroken = false := by
  cases hf : e.finite with
  | false => exact Or.inl rfl
  | true =>
    cases hu : e.unbroken with
    | false => exact Or.inr rfl
    | true =>
      have hm : e.meets .faithful = true := by
        refine List.all_eq_true.2 fun t ht => ?_
        simp only [Rules.faithful, Bool.and_eq_true]
        exact ⟨List.all_eq_true.1 hf t ht, List.all_eq_true.1 hu t ht⟩
      rw [hm] at h
      cases h

theorem exists_of_not_conditionMeets {condition : Option Expr}
    (h : conditionMeets .parsed condition = true)
    (hb : conditionMeets .faithful condition = false) :
    ∃ e, condition = some e ∧ e.spellable = true ∧ (e.finite = false ∨ e.unbroken = false) := by
  cases condition with
  | none => cases hb
  | some e => exact ⟨e, rfl, h, not_finite_or_not_unbroken e hb⟩

/-! ### Lines that go astray -/

/-- Lines at this level, whatever follows them, are not read as something with these heads. -/
def Astray (level : Nat) (text : List Char) (heads : List Head) : Prop :=
  ∀ (a : Assembly) (c : Cursor) (start following : List Char),
    Next level start (text ++ following) → Between c level 0 start →
    Strays ⟨c, a⟩ (a.heads ++ heads)

def BranchesAstray (level : Nat) (bs : List Branch) : Prop :=
  ∀ (a : Assembly) (c : Cursor) (start following : List Char) (n branchLine : Nat)
    (finished : List Branch) (condition : Option Expr) (before : List Statement)
    (around : List Enclosing),
    a.around = .conditional n finished branchLine condition before :: around →
    (condition.isSome :: bs.map fun b => b.condition.isSome).dropLast.all id = true →
    Next level start
      (branchesChars level false bs ++ (tabs level ++ ("<<endif>>\n".toList ++ following))) →
    Between c level 0 start → Strays ⟨c, a⟩ (a.heads ++ branchesHeads bs)

theorem astray_of_inside {level : Nat} {text : List Char} {heads : List Head}
    (content : List Char) (more : List Char)
    (hs : text = tabs level ++ (content ++ '\n' :: more))
    (h : ∀ (a : Assembly) c following,
      Inside c .base true (tabLevels level) (content ++ '\n' :: following) →
      Strays ⟨c, a⟩ (a.heads ++ heads)) : Astray level text heads := by
  intro a c start following hstart hb
  rw [hs, List.append_assoc, List.append_assoc] at hstart
  have he := hstart.start_eq
  subst he
  exact h a c (more ++ following) (hb.inside (by simp))

section

variable {level n : Nat}

theorem astray_link {destination : String} (h : Rules.parsed.link destination.toList = true)
    (hl : destination.toList.getLast? = some ']') :
    Astray level ((Statement.link n destination).chars level)
      (Statement.link n destination).heads := by
  refine astray_of_inside ('[' :: '[' :: destination.toList ++ [']', ']']) []
    (by simp [chars]) fun a c following hi => ?_
  have hline : Inside c .base true (tabLevels level)
      ('[' :: '[' :: destination.toList ++ ']' :: ']' :: '\n' :: following) := by
    simpa using hi
  have hstray := hline.strays_link (a := a) (optionText_of_label h).2 hl
  rwa [String.ofList_toList] at hstray

theorem astray_option {label destination : String} {e : Expr}
    (hlabel : Rules.parsed.label label.toList = true)
    (hdestination : Rules.parsed.destination destination.toList = true)
    (hs : e.spellable = true) (hb : e.finite = false ∨ e.unbroken = false) :
    Astray level ((Statement.option n label destination (some e)).chars level)
      (Statement.option n label destination (some e)).heads := by
  refine astray_of_inside ('[' :: '[' :: label.toList ++ '|' :: destination.toList ++
    ']' :: ']' :: conditionChars (some e)) [] (by simp [chars]) fun a c following hi => ?_
  have hline : Inside c .base true (tabLevels level) ('[' :: '[' :: label.toList ++ '|' ::
      destination.toList ++ ']' :: ']' :: (conditionChars (some e) ++ '\n' :: following)) := by
    simpa using hi
  have hd : destination.toList ≠ [] ∧ destination.toList.all Mode.isDestinationChar = true := by
    simpa [Rules.parsed, Rules.isDestination] using hdestination
  exact Inside.strays_option hs hb hline (optionText_of_label hlabel).2 hd.1 hd.2 label destination

theorem astray_assignment {target : String} {op : AssignOp} {value : Expr}
    (htarget : Rules.parsed.target target.toList = true) (hs : value.spellable = true)
    (hb : value.finite = false ∨ value.unbroken = false) :
    Astray level ((Statement.assignment n target op value).chars level)
      (Statement.assignment n target op value).heads := by
  refine astray_of_inside ('<' :: '<' ::
    ("set".toList ++ (assignmentLead target op ++ value.chars)) ++ ['>', '>']) []
    (by simp [chars, assignmentLead]) fun a c following hi => ?_
  have hline : Inside c .base true (tabLevels level) ('<' :: '<' ::
      ("set".toList ++ (assignmentLead target op ++ value.chars)) ++
      '>' :: '>' :: '\n' :: following) := by
    simpa using hi
  exact Inside.strays_assignment hs hb hline htarget

theorem astray_command {content : String} (h : Rules.parsed.command content.toList = true)
    (hb : content.toList = [] ∨ content.toList.getLast? = some '>') :
    Astray level ((Statement.command n content).chars level)
      (Statement.command n content).heads := by
  refine astray_of_inside ('<' :: '<' :: content.toList ++ ['>', '>']) []
    (by simp [chars]) fun a c following hi => ?_
  have hline : Inside c .base true (tabLevels level)
      ('<' :: '<' :: content.toList ++ '>' :: '>' :: '\n' :: following) := by
    simpa using hi
  have hstray := hline.strays_plain_command (a := a) h hb
  rwa [String.ofList_toList] at hstray

end

theorem astray_shortcut_condition {level n : Nat} {label : String} {e : Expr}
    {body : List Statement} (hlabel : Rules.parsed.shortcut label.toList = true)
    (hs : e.spellable = true) (hb : e.finite = false ∨ e.unbroken = false) :
    Astray level ((Statement.shortcut n label (some e) body).chars level)
      (Statement.shortcut n label (some e) body).heads := by
  refine astray_of_inside ('-' :: '>' :: ' ' :: label.toList ++ conditionChars (some e))
    (blockChars (level + 1) body) (by simp [chars]) fun a c following hi => ?_
  have hstray : Strays ⟨c, a⟩ (a.heads ++ [.shortcut label (erasedCondition (some e))]) :=
    Inside.strays_shortcut hs hb (by simpa using hi) (labelText_of_shortcut hlabel).2 label
  simpa [heads] using hstray.append (blockHeads body)

theorem astray_shortcut_body {level n : Nat} {label : String} {condition : Option Expr}
    {body : List Statement} (hlabel : Rules.parsed.shortcut label.toList = true)
    (hc : conditionMeets .printable condition = true) (hne : body ≠ [])
    (hbody : blockMeets .parsed body = true)
    (h : Astray (level + 1) (blockChars (level + 1) body) (blockHeads body)) :
    Astray level ((Statement.shortcut n label condition body).chars level)
      (Statement.shortcut n label condition body).heads := by
  intro a c start following hstart hb
  obtain ⟨hp, hl⟩ := labelText_of_shortcut hlabel
  obtain ⟨start', _, hnext⟩ := next_blockChars parsed_text rfl (level + 1) body hne hbody following
  obtain ⟨d, m, found, hfound, hleads, hd⟩ := (inside_shortcut hstart hb).leads_shortcut_body
    hp hl (conditionWritable_of_meets hc) hnext
  have hheads : Assembly.heads ⟨[], .shortcut m (String.ofList label.toList) found a.block ::
      a.around, .shortcut :: a.levels⟩ =
      a.heads ++ [.shortcut label (erasedCondition condition)] := by
    simp [Assembly.heads, aroundHeads, Enclosing.heads, blockHeads, hfound]
  exact hleads.strays_behind hheads (h _ d start' following hnext hd)

theorem strays_branch_body {level : Nat} {body : List Statement} {c : Cursor} {a b : Assembly}
    {following : List Char} {head : Head} (hne : body ≠ [])
    (hbody : blockMeets .parsed body = true)
    (h : Astray (level + 1) (blockChars (level + 1) body) (blockHeads body))
    (hread : c.ReadsLine a level (blockChars (level + 1) body ++ following) b)
    (hb : b.heads = a.heads ++ [head]) :
    Strays ⟨c, a⟩ (a.heads ++ (head :: blockHeads body)) := by
  obtain ⟨start, _, hnext⟩ := next_blockChars parsed_text rfl (level + 1) body hne hbody following
  obtain ⟨d, hleads, hd⟩ := hread.deepen hnext
  exact hleads.strays_behind hb (h _ d start following hnext hd)

theorem heads_nest_conditional (a : Assembly) (n m : Nat) (e : Expr) :
    (a.nest (.conditional n [] m (some e))).heads =
      a.heads ++ [.branch (erasedCondition (some e))] := by
  simp [Assembly.heads, Assembly.nest, aroundHeads, Enclosing.heads, blockHeads, branchesHeads]

theorem heads_next_branch {a : Assembly} {n branchLine : Nat} {finished : List Branch}
    {condition : Option Expr} {before : List Statement} {around : List Enclosing}
    (ha : a.around = .conditional n finished branchLine condition before :: around)
    (m : Nat) (found : Option Expr) (body : List Statement) :
    Assembly.heads ⟨body, .conditional n (finished ++ [.mk branchLine condition a.block]) m found
      before :: around, a.levels⟩ =
      a.heads ++ (.branch (erasedCondition found) :: blockHeads body) := by
  simp [Assembly.heads, ha, aroundHeads, Enclosing.heads, branchesHeads_append, branchesHeads]

theorem branchesAstray_condition {level n : Nat} {e : Expr} {body : List Statement}
    {bs : List Branch} (hs : e.spellable = true) (hb : e.finite = false ∨ e.unbroken = false) :
    BranchesAstray level (.mk n (some e) body :: bs) := by
  intro a c start following m branchLine finished previous before around _ hheads hstart hc
  obtain ⟨_, _, hi⟩ := inside_branch hheads hstart hc
  have hstray : Strays ⟨c, a⟩ (a.heads ++ [.branch (erasedCondition (some e))]) :=
    Inside.strays_elseif hs hb hi
  simpa [branchesHeads] using hstray.append (blockHeads body ++ branchesHeads bs)

theorem branchesAstray_body {level n : Nat} {condition : Option Expr} {body : List Statement}
    {bs : List Branch} (hc : conditionMeets .printable condition = true) (hne : body ≠ [])
    (hbody : blockMeets .parsed body = true)
    (h : Astray (level + 1) (blockChars (level + 1) body) (blockHeads body)) :
    BranchesAstray level (.mk n condition body :: bs) := by
  intro a c start following m branchLine finished previous before around ha hheads hstart hb
  obtain ⟨⟨e, rfl⟩, _, hi⟩ := inside_branch hheads hstart hb
  obtain ⟨k, found, hfound, hread⟩ := hi.reads_clause (conditionWritable_of_meets hc) ha
  have hnext := heads_next_branch ha k found []
  rw [hfound] at hnext
  have hstray := strays_branch_body hne hbody h hread hnext
  simpa [branchesHeads] using hstray.append (branchesHeads bs)

theorem branchesAstray_rest {level n : Nat} {condition : Option Expr} {body : List Statement}
    {bs : List Branch} (hc : conditionMeets .printable condition = true)
    (hbody : blockMeets .printable body = true) (h : BranchesAstray level bs) :
    BranchesAstray level (.mk n condition body :: bs) := by
  intro a c start following m branchLine finished previous before around ha hheads hstart hb
  obtain ⟨⟨e, rfl⟩, hheads', hi⟩ := inside_branch hheads hstart hb
  obtain ⟨k, found, hfound, hread⟩ := hi.reads_clause (conditionWritable_of_meets hc) ha
  obtain ⟨start', hnext⟩ := next_branches bs following
  obtain ⟨d, body', hbody', hleads, hd⟩ := leads_branch_body hbody
    (fun hne => blockReads (level + 1) body hbody hne) hread rfl hnext
  rw [← isSome_of_erasedCondition hfound] at hheads'
  have hstray := h ⟨body', _, a.levels⟩ d start' following m k
    (finished ++ [.mk branchLine (some e) a.block]) found before around rfl hheads' hnext hd
  have hread' := heads_next_branch ha k found body'
  rw [hfound, blockHeads_of_erasedBlock hbody'] at hread'
  simpa [branchesHeads] using hleads.strays_behind hread' hstray

section

variable {level n m : Nat} {body : List Statement} {bs : List Branch}

theorem astray_conditional_condition {e : Expr} (hs : e.spellable = true)
    (hb : e.finite = false ∨ e.unbroken = false) :
    Astray level ((Statement.conditional n (.mk m (some e) body :: bs)).chars level)
      (Statement.conditional n (.mk m (some e) body :: bs)).heads := by
  refine astray_of_inside (branchHead true (some e)) (blockChars (level + 1) body ++
    (branchesChars level false bs ++ (tabs level ++ "<<endif>>\n".toList)))
    (by simp [chars, branchesChars]) fun a c following hi => ?_
  have hstray : Strays ⟨c, a⟩ (a.heads ++ [.branch (erasedCondition (some e))]) :=
    Inside.strays_if hs hb hi
  simpa [heads, branchesHeads] using hstray.append (blockHeads body ++ branchesHeads bs)

variable {e : Expr} (hc : e.Writable)

include hc

theorem astray_conditional_body (hne : body ≠ []) (hbody : blockMeets .parsed body = true)
    (h : Astray (level + 1) (blockChars (level + 1) body) (blockHeads body)) :
    Astray level ((Statement.conditional n (.mk m (some e) body :: bs)).chars level)
      (Statement.conditional n (.mk m (some e) body :: bs)).heads := by
  intro a c start following hstart hb
  obtain ⟨k, found, hfound, hread⟩ := (inside_conditional hstart hb).reads_if a hc
  have hnest := heads_nest_conditional a k k found
  rw [hfound] at hnest
  have hstray := strays_branch_body hne hbody h hread hnest
  simpa [heads, branchesHeads] using hstray.append (branchesHeads bs)

theorem astray_conditional_rest (hbody : blockMeets .printable body = true)
    (hheads : (true :: bs.map fun b => b.condition.isSome).dropLast.all id = true)
    (h : BranchesAstray level bs) :
    Astray level ((Statement.conditional n (.mk m (some e) body :: bs)).chars level)
      (Statement.conditional n (.mk m (some e) body :: bs)).heads := by
  intro a c start following hstart hb
  obtain ⟨k, found, hfound, hread⟩ := (inside_conditional hstart hb).reads_if a hc
  obtain ⟨start', hnext⟩ := next_branches bs following
  obtain ⟨d, body', hbody', hleads, hd⟩ := leads_branch_body hbody
    (fun hne => blockReads (level + 1) body hbody hne) hread rfl hnext
  have hstray := h ⟨body', _, a.levels⟩ d start' following k k [] (some found) a.block a.around
    rfl hheads hnext hd
  have hnest : Assembly.heads ⟨body', .conditional k [] k (some found) a.block :: a.around,
      a.levels⟩ = a.heads ++ (.branch (erasedCondition (some e)) :: blockHeads body) := by
    simp [Assembly.heads, aroundHeads, Enclosing.heads, branchesHeads, hfound,
      blockHeads_of_erasedBlock hbody']
  simpa [heads, branchesHeads] using hleads.strays_behind hnest hstray

end

theorem ne_nil_of_not_blockMeets {r : Rules} {ss : List Statement}
    (h : blockMeets r ss = false) : ss ≠ [] := by
  rintro rfl
  cases h

theorem blockAstray_rest {level : Nat} {s : Statement} {ss : List Statement}
    (hs : Reads level s) (hss : blockMeets .parsed ss = true) (hne : ss ≠ [])
    (h : Astray level (blockChars level ss) (blockHeads ss)) :
    Astray level (blockChars level (s :: ss)) (blockHeads (s :: ss)) := by
  intro a c start following hstart hb
  rw [blockChars, List.append_assoc] at hstart
  obtain ⟨start', _, hnext⟩ := next_blockChars parsed_text rfl level ss hne hss following
  obtain ⟨d, s', hs', hleads, hd⟩ :=
    hs a c start start' (blockChars level ss ++ following) level hstart hb hnext (Nat.le_refl level)
  rw [Nat.sub_self] at hd
  have hpush := a.heads_push s'
  rw [heads_of_erased hs'] at hpush
  exact hleads.strays_behind hpush (h _ d start' following hnext hd)

theorem blockAstray_first {level : Nat} {s : Statement} {ss : List Statement}
    (h : Astray level (s.chars level) s.heads) :
    Astray level (blockChars level (s :: ss)) (blockHeads (s :: ss)) := by
  intro a c start following hstart hb
  rw [blockChars, List.append_assoc] at hstart
  have hstray := (h a c start (blockChars level ss ++ following) hstart hb).append (blockHeads ss)
  rw [List.append_assoc] at hstray
  exact hstray

mutual

theorem astray (level : Nat) : ∀ s : Statement, s.meets .parsed = true →
    s.meets .faithful = false → Astray level (s.chars level) s.heads
  | .text _ _, _, hf => by cases hf
  | .link _ destination, h, hf => by
    have hl : destination.toList.getLast? = some ']' := by
      simpa [meets, Rules.faithful] using hf
    exact astray_link h hl
  | .option _ label destination condition, h, hf => by
    simp only [meets, Bool.and_eq_true] at h
    have hc : conditionMeets .faithful condition = false := by
      simpa [meets, Rules.faithful] using hf
    obtain ⟨e, rfl, hs, hb⟩ := exists_of_not_conditionMeets h.2 hc
    exact astray_option h.1.1 h.1.2 hs hb
  | .shortcut _ label condition body, h, hf => by
    simp only [meets, Bool.and_eq_true] at h
    cases hc : conditionMeets .faithful condition with
    | false =>
      obtain ⟨e, rfl, hs, hb⟩ := exists_of_not_conditionMeets h.1.2 hc
      exact astray_shortcut_condition h.1.1 hs hb
    | true =>
      have hparts : (conditionMeets .faithful condition && blockMeets .faithful body) = false := hf
      have hbody : blockMeets .faithful body = false := by rwa [hc, Bool.true_and] at hparts
      have hne := ne_nil_of_not_blockMeets hbody
      exact astray_shortcut_body h.1.1
        (conditionMeets_of_entails Rules.printable_of_faithful condition h.1.2 hc) hne h.2
        (blockAstray (level + 1) body h.2 hbody)
  | .conditional _ [], _, hf => by cases hf
  | .conditional _ (.mk _ condition body :: bs), h, hf => by
    simp only [meets, branchesMeet, Bool.and_eq_true] at h
    obtain ⟨hbranches, ⟨hcondition, hbody⟩, hbs⟩ := h
    simp only [Rules.parsed, Rules.areBranches, Bool.and_eq_true, beq_iff_eq, List.map_cons,
      List.head?_cons, Option.some.injEq] at hbranches
    obtain ⟨hfirst, hheads⟩ := hbranches
    obtain ⟨e, rfl⟩ := Option.isSome_iff_exists.1 hfirst
    cases hc : conditionMeets .faithful (some e) with
    | false =>
      obtain ⟨e', he, hs, hb⟩ := exists_of_not_conditionMeets hcondition hc
      cases he
      exact astray_conditional_condition hs hb
    | true =>
      have hw : e.Writable := writable_of_meets e
        (e.meets_of_entails Rules.printable_of_faithful hcondition hc)
      cases hb : blockMeets .faithful body with
      | false =>
        exact astray_conditional_body hw (ne_nil_of_not_blockMeets hb) hbody
          (blockAstray (level + 1) body hbody hb)
      | true =>
        have hparts : (conditionMeets .faithful (some e) && blockMeets .faithful body &&
          branchesMeet .faithful bs) = false := hf
        have hrest : branchesMeet .faithful bs = false := by
          rwa [hc, hb, Bool.true_and, Bool.true_and] at hparts
        exact astray_conditional_rest hw
          (blockMeets_of_entails Rules.printable_of_faithful body hbody hb) hheads
          (branchesAstray level bs hbs hrest)
  | .assignment _ target op value, h, hf => by
    simp only [meets, Bool.and_eq_true] at h
    have hv : value.meets .faithful = false := by
      simpa [meets, Rules.faithful] using hf
    exact astray_assignment h.1 h.2 (not_finite_or_not_unbroken value hv)
  | .command _ content, h, hf => by
    have hb : content.toList = [] ∨ content.toList.getLast? = some '>' := by
      simpa [meets, Rules.faithful, or_iff_not_imp_left] using hf
    exact astray_command h hb

theorem blockAstray (level : Nat) : ∀ ss : List Statement, blockMeets .parsed ss = true →
    blockMeets .faithful ss = false → Astray level (blockChars level ss) (blockHeads ss)
  | [], _, hf => by cases hf
  | s :: ss, h, hf => by
    simp only [blockMeets, Bool.and_eq_true] at h
    cases hs : s.meets .faithful with
    | false => exact blockAstray_first (astray level s h.1 hs)
    | true =>
      have hss : blockMeets .faithful ss = false := by
        simpa [blockMeets, hs] using hf
      exact blockAstray_rest (reads level s (meets_of_entails Rules.printable_of_faithful s h.1 hs))
        h.2 (ne_nil_of_not_blockMeets hss) (blockAstray level ss h.2 hss)

theorem branchesAstray (level : Nat) : ∀ bs : List Branch, branchesMeet .parsed bs = true →
    branchesMeet .faithful bs = false → BranchesAstray level bs
  | [], _, hf => by cases hf
  | .mk _ condition body :: bs, h, hf => by
    simp only [branchesMeet, Bool.and_eq_true] at h
    cases hc : conditionMeets .faithful condition with
    | false =>
      obtain ⟨e, rfl, hs, hb⟩ := exists_of_not_conditionMeets h.1.1 hc
      exact branchesAstray_condition hs hb
    | true =>
      have hp := conditionMeets_of_entails Rules.printable_of_faithful condition h.1.1 hc
      cases hb : blockMeets .faithful body with
      | false =>
        exact branchesAstray_body hp (ne_nil_of_not_blockMeets hb) h.1.2
          (blockAstray (level + 1) body h.1.2 hb)
      | true =>
        have hrest : branchesMeet .faithful bs = false := by
          simpa [branchesMeet, hc, hb] using hf
        exact branchesAstray_rest hp
          (blockMeets_of_entails Rules.printable_of_faithful body h.1.2 hb)
          (branchesAstray level bs h.2 hrest)

end

theorem conditionChars_erasedCondition (condition : Option Expr) :
    conditionChars (erasedCondition condition) = conditionChars condition := by
  cases condition with
  | none => rfl
  | some e =>
    exact congrArg (fun cs => " <<if ".toList ++ cs ++ ">>".toList) (Expr.chars_atLine 0 e)

theorem branchHead_erasedCondition (first : Bool) (condition : Option Expr) :
    branchHead first (erasedCondition condition) = branchHead first condition := by
  cases condition with
  | none => rfl
  | some e =>
    exact congrArg (fun cs => (if first then "<<if ".toList else "<<elseif ".toList) ++ cs ++
      ">>".toList) (Expr.chars_atLine 0 e)

mutual

theorem chars_erased (level : Nat) : ∀ s : Statement, s.erased.chars level = s.chars level
  | .text _ _ => rfl
  | .link _ _ => rfl
  | .option _ _ _ condition => by
    simp only [erased, chars, conditionChars_erasedCondition]
  | .shortcut _ _ condition body => by
    simp only [erased, chars, conditionChars_erasedCondition, blockChars_erasedBlock (level + 1) body]
  | .conditional _ branches => by
    simp only [erased, chars, branchesChars_erasedBranches level true branches]
  | .assignment _ _ _ value => by simp only [erased, chars, Expr.chars_atLine]
  | .command _ _ => rfl

theorem blockChars_erasedBlock (level : Nat) : ∀ ss : List Statement,
    blockChars level (erasedBlock ss) = blockChars level ss
  | [] => rfl
  | s :: ss => by
    simp only [erasedBlock, blockChars, chars_erased level s, blockChars_erasedBlock level ss]

theorem branchesChars_erasedBranches (level : Nat) (first : Bool) : ∀ bs : List Branch,
    branchesChars level first (erasedBranches bs) = branchesChars level first bs
  | [] => rfl
  | .mk _ condition body :: bs => by
    simp only [erasedBranches, branchesChars, branchHead_erasedCondition,
      blockChars_erasedBlock (level + 1) body, branchesChars_erasedBranches level false bs]

end

theorem formatBody_of_erasedBlock {a b : List Statement} (h : erasedBlock a = erasedBlock b) :
    formatBody a = formatBody b := by
  have hchars : blockChars 0 a = blockChars 0 b := by
    rw [← blockChars_erasedBlock 0 a, h, blockChars_erasedBlock 0 b]
  exact congrArg String.ofList hchars

/-! ### Whole bodies -/

/-- The canonical text is read as the same statements, which are written the same again. -/
def Rereads (ss : List Statement) : Prop :=
  ∃ ss', ofBody (formatBody ss).toList = .ok ss' ∧ erasedBlock ss' = erasedBlock ss ∧
    formatBody ss' = formatBody ss

theorem rereads_of_faithful {ss : List Statement} (h : blockMeets .parsed ss = true)
    (hf : blockMeets .faithful ss = true) : Rereads ss := by
  obtain ⟨ss', hread, hss'⟩ := ofBody_formatBody_of_printable ss
    (blockMeets_of_entails Rules.printable_of_faithful ss h hf)
  exact ⟨ss', hread, hss', formatBody_of_erasedBlock hss'⟩

theorem result_of_ofBody {body : List Char} {ss : List Statement} (h : ofBody body = .ok ss) :
    ∃ e, Place.result e ⟨.ofBody body, {}⟩ = some ss := by
  unfold ofBody Body.tokenize at h
  cases ht : (Cursor.ofBody body).tokens? with
  | error err =>
    rw [ht] at h
    cases h
  | ok tokens =>
    rw [ht] at h
    simp only at h
    cases hread : ofTokens tokens with
    | error err =>
      rw [hread] at h
      cases h
    | ok found =>
      rw [hread] at h
      cases h
      unfold ofTokens at hread
      exact ⟨.ofTokens tokens, by simp [Place.result, ht, hread, Except.toOption]⟩

theorem faithful_of_rereads {ss : List Statement} (h : blockMeets .parsed ss = true)
    (hr : Rereads ss) : blockMeets .faithful ss = true := by
  obtain ⟨ss', hread, hss', _⟩ := hr
  cases hf : blockMeets .faithful ss with
  | true => rfl
  | false =>
    obtain ⟨start, hbegins, hnext⟩ :=
      next_blockChars parsed_text rfl 0 ss (ne_nil_of_not_blockMeets hf) h []
    have hstart : blockChars 0 ss = start := by simpa using hnext.eq_append
    rw [formatBody, String.toList_ofList, hstart] at hread
    obtain ⟨e, he⟩ := result_of_ofBody hread
    obtain ⟨c, hleads, hc⟩ := leads_ofBody hbegins {}
    have hstray := hleads.strays (blockAstray 0 ss h hf {} c start [] hnext hc)
    refine absurd ?_ (hstray e ss' he)
    rw [blockHeads_of_erasedBlock hss']
    exact List.prefix_rfl

/-- The statements of a body are read back from their canonical text exactly if they are faithful.
-/
theorem rereads_iff_faithful {body : List Char} {ss : List Statement} (h : ofBody body = .ok ss) :
    Rereads ss ↔ blockMeets .faithful ss = true :=
  ⟨faithful_of_rereads (blockMeets_of_ofBody h), rereads_of_faithful (blockMeets_of_ofBody h)⟩

theorem rereads_iff_faithful_commands :
    (ofBody "<<a> >>".toList = .ok [.command 1 "a>"] ∧ ¬Rereads [.command 1 "a>"]) ∧
      ofBody "<<a> b>>".toList = .ok [.command 1 "a> b"] ∧ Rereads [.command 1 "a> b"] := by
  have hhalf : ofBody "<<a> >>".toList = .ok [.command 1 "a>"] := by cbv
  have hwhole : ofBody "<<a> b>>".toList = .ok [.command 1 "a> b"] := by cbv
  refine ⟨⟨hhalf, fun h => ?_⟩, hwhole, ?_⟩
  · have hf := (rereads_iff_faithful hhalf).1 h
    revert hf
    decide
  · exact (rereads_iff_faithful hwhole).2 (by decide)

-- The bracket ends the command too early, and its last character becomes a text.
example : ofBody (formatBody [.command 1 "a>"]).toList =
    .ok [.command 1 "a", .text 1 ">"] := by
  cbv

end Statement

end Dialogue
