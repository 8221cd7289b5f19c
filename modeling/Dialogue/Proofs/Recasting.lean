import Dialogue.Proofs.Padding

/-!
# Bodies with the same lines

What a body means depends on its content lines alone: on the order of their widths,
and on their texts, up to blanks at their ends. Bodies whose content lines are akin
(`ContentLine.Akin`) have tokens akin, and so the same statements (`ofBody_akin`). Two
bodies that differ in blank lines, in line breaks, or in the blanks that indent a line
are a case of this (`ofBody_of_layout`).
-/

namespace Dialogue
open Statement (blockMapLines conditionedLines)

/-- Related widths are in the same order. -/
def KeepsOrder (R : Nat → Nat → Prop) : Prop :=
  ∀ ⦃a a' b b' : Nat⦄, R a a' → R b b' → (a < b ↔ a' < b')

section

variable {R : Nat → Nat → Prop} {stack other : List Nat} {width width' : Nat}

theorem leave_ne_nil (width : Nat) (h : stack ≠ []) : leave width stack ≠ [] := by
  fun_induction leave width stack with
  | case1 top next below _ ih => exact ih (List.cons_ne_nil _ _)
  | case2 => exact List.cons_ne_nil _ _
  | case3 => exact h

theorem settle_ne_nil (width : Nat) (h : stack ≠ []) : settle stack width ≠ [] := by
  unfold settle
  split
  · exact List.cons_ne_nil _ _
  · exact leave_ne_nil width h

theorem leave_akin (hR : KeepsOrder R) (hw : R width width') (hs : List.Forall₂ R stack other) :
    List.Forall₂ R (leave width stack) (leave width' other) := by
  fun_induction leave width stack generalizing other with
  | case1 top next below hle ih =>
    obtain _ | ⟨htop, _ | ⟨hnext, hbelow⟩⟩ := hs
    have hle' : width' ≤ _ := Nat.not_lt.1 (mt (hR hnext hw).2 (Nat.not_lt.2 hle))
    rw [leave, if_pos hle']
    exact ih (.cons hnext hbelow)
  | case2 top next below hle =>
    obtain _ | ⟨htop, _ | ⟨hnext, hbelow⟩⟩ := hs
    have hle' := Nat.not_le.2 ((hR hnext hw).1 (Nat.not_le.1 hle))
    rw [leave, if_neg hle']
    exact .cons htop (.cons hnext hbelow)
  | case3 stack hshort =>
    match stack, hs with
    | [], .nil => exact .nil
    | [level], .cons hlevel .nil => exact .cons hlevel .nil
    | top :: next :: below, _ => exact (hshort top next below rfl).elim

theorem headD_lt_akin (hR : KeepsOrder R) (hw : R width width') (hs : List.Forall₂ R stack other)
    (hne : stack ≠ []) : stack.headD 0 < width ↔ other.headD 0 < width' := by
  obtain _ | ⟨htop, hbelow⟩ := hs
  · exact absurd rfl hne
  · exact hR htop hw

theorem settle_akin (hR : KeepsOrder R) (hw : R width width') (hs : List.Forall₂ R stack other)
    (hne : stack ≠ []) : List.Forall₂ R (settle stack width) (settle other width') := by
  have hdeep := headD_lt_akin hR hw hs hne
  unfold settle
  split
  · rename_i hlt
    rw [if_pos (hdeep.1 hlt)]
    exact .cons hw hs
  · rename_i hlt
    rw [if_neg (mt hdeep.2 hlt)]
    exact leave_akin hR hw hs

theorem markersOf_akin (hR : KeepsOrder R) (hw : R width width') (hs : List.Forall₂ R stack other)
    (hne : stack ≠ []) : markersOf other width' = markersOf stack width := by
  unfold markersOf
  simp only [headD_lt_akin hR hw hs hne, hs.length_eq, (leave_akin hR hw hs).length_eq]

end

/-! ### Lines akin -/

/-- The line elsewhere, with another width and blanks behind it where there is slack. -/
structure ContentLine.Akin (R : Nat → Nat → Prop) (g : Nat → Nat) (slack : Nat → Prop)
    (line other : ContentLine) : Prop where
  number : other.number = g line.number
  width : R line.width other.width
  ne_nil : line.content ≠ []
  content : ∃ pad, Blanks pad ∧ other.content = line.content ++ pad ∧
    (pad ≠ [] → slack line.number)

section

variable {R : Nat → Nat → Prop} {g : Nat → Nat} {slack : Nat → Prop}
  {line other : ContentLine} {below lower : List ContentLine} {ts us : List Token} {number : Nat}

theorem ContentLine.Akin.of_content (hnumber : other.number = g line.number)
    (hwidth : R line.width other.width) (hcontent : other.content = line.content)
    (hne : line.content ≠ []) : line.Akin R g slack other := by
  refine ⟨hnumber, hwidth, hne, [], nofun, ?_, fun hpad => absurd rfl hpad⟩
  rw [List.append_nil, hcontent]

theorem Akin.cons_piece {t u : Token} (hpiece : u.piece = t.piece)
    (hline : u.position.line = g t.position.line) (h : Akin g slack ts us) :
    Akin g slack (t :: ts) (u :: us) := by
  obtain ⟨hkind, htext⟩ := Prod.mk.inj hpiece
  exact .cons ⟨hkind, fun _ => hline, fun _ => by rw [htext]⟩ (fun _ _ => htext) h

theorem Akin.of_pieces {inner inner' : List Token}
    (hpieces : inner'.map Token.piece = inner.map Token.piece)
    (hline : ∀ t ∈ inner, t.position.line = number)
    (hother : ∀ u ∈ inner', u.position.line = g number) (h : Akin g slack ts us) :
    Akin g slack (inner ++ ts) (inner' ++ us) := by
  induction inner generalizing inner' with
  | nil =>
    rw [List.map_eq_nil_iff.1 hpieces]
    exact h
  | cons t inner ih =>
    obtain ⟨u, inner', rfl, hpiece, hrest⟩ := List.map_eq_cons_iff.1 hpieces
    have hnumber : u.position.line = g t.position.line := by
      rw [hother u List.mem_cons_self, hline t List.mem_cons_self]
    refine .cons_piece hpiece hnumber ?_
    exact ih hrest (fun v hv => hline v (List.mem_cons_of_mem t hv))
      fun v hv => hother v (List.mem_cons_of_mem u hv)

theorem isBlankText_of_blanks {t : Token} {pad : List Char} (h : Blanks pad)
    (hpiece : t.piece = (.text, pad)) : t.isBlankText = true := by
  obtain ⟨hkind, htext⟩ := Prod.mk.inj hpiece
  simp [Token.isBlankText, hkind, htext, h.trim_eq_nil]

theorem Akin.of_padded {pad : List Char} {inner inner' : List Token} (hpad : Blanks pad)
    (hpieces : Padded pad (inner.map Token.piece) (inner'.map Token.piece))
    (hline : ∀ t ∈ inner, t.position.line = number)
    (hother : ∀ u ∈ inner', u.position.line = g number) (hslack : slack number)
    (hends : endsLine ts = true) (h : Akin g slack ts us) :
    Akin g slack (inner ++ ts) (inner' ++ us) := by
  generalize hp : inner.map Token.piece = pieces at hpieces
  generalize hq : inner'.map Token.piece = others at hpieces
  induction hpieces generalizing inner inner' with
  | text cs =>
    obtain ⟨t, inner, rfl, hpiece, hrest⟩ := List.map_eq_cons_iff.1 hp
    obtain ⟨u, inner', rfl, hpiece', hrest'⟩ := List.map_eq_cons_iff.1 hq
    rw [List.map_eq_nil_iff.1 hrest, List.map_eq_nil_iff.1 hrest']
    obtain ⟨hkind, htext⟩ := Prod.mk.inj hpiece
    obtain ⟨hkind', htext'⟩ := Prod.mk.inj hpiece'
    refine .cons ⟨hkind'.trans hkind.symm, fun _ => ?_, fun _ => ?_⟩ (fun _ hinside => ?_) h
    · rw [hother u List.mem_cons_self, hline t List.mem_cons_self]
    · rw [htext, htext', hpad.trim_append]
    · cases hinside.symm.trans hends
  | closing hclosing cs =>
    obtain ⟨t, inner, rfl, hpiece, hrest⟩ := List.map_eq_cons_iff.1 hp
    obtain ⟨u, inner', rfl, hpiece', hrest'⟩ := List.map_eq_cons_iff.1 hq
    obtain ⟨blank, inner', rfl, hblank, hrest'⟩ := List.map_eq_cons_iff.1 hrest'
    rw [List.map_eq_nil_iff.1 hrest, List.map_eq_nil_iff.1 hrest']
    obtain ⟨hkind, htext⟩ := Prod.mk.inj hpiece
    obtain ⟨hkind', htext'⟩ := Prod.mk.inj hpiece'
    have hnumber := hline t List.mem_cons_self
    refine .padded ⟨hkind'.trans hkind.symm, fun _ => ?_, fun _ => ?_⟩ (hkind ▸ hclosing)
      (hnumber ▸ hslack) (isBlankText_of_blanks hpad hblank) hends h
    · rw [hother u List.mem_cons_self, hnumber]
    · rw [htext, htext']
  | cons piece _ ih =>
    obtain ⟨t, inner, rfl, hpiece, hrest⟩ := List.map_eq_cons_iff.1 hp
    obtain ⟨u, inner', rfl, hpiece', hrest'⟩ := List.map_eq_cons_iff.1 hq
    have hnumber : u.position.line = g t.position.line := by
      rw [hother u List.mem_cons_self, hline t List.mem_cons_self]
    refine .cons_piece (hpiece'.trans hpiece.symm) hnumber ?_
    exact ih (fun v hv => hline v (List.mem_cons_of_mem t hv))
      (fun v hv => hother v (List.mem_cons_of_mem u hv)) hrest hrest'

theorem Akin.of_kinds {markers markers' : List Token}
    (hkinds : markers'.map Token.kind = markers.map Token.kind)
    (hnone : ∀ t ∈ markers, t.kind ∉ TokenKind.ofLine) (h : Akin g slack ts us) :
    Akin g slack (markers ++ ts) (markers' ++ us) := by
  induction markers generalizing markers' with
  | nil =>
    rw [List.map_eq_nil_iff.1 hkinds]
    exact h
  | cons t markers ih =>
    obtain ⟨u, markers', rfl, hkind, hrest⟩ := List.map_eq_cons_iff.1 hkinds
    have hout := hnone t List.mem_cons_self
    refine .cons ⟨hkind, fun hk => absurd hk hout, fun hk => absurd hk hout⟩ (fun hk => ?_) ?_
    · rw [hk] at hout
      exact absurd (by decide) hout
    · exact ih hrest fun v hv => hnone v (List.mem_cons_of_mem t hv)

theorem ContentLine.Akin.lexed (h : line.Akin R g slack other) (hline : line.Lexed) :
    other.Lexed := by
  obtain ⟨pieces, hpieces⟩ := hline
  obtain ⟨pad, hpad, hcontent, -⟩ := h.content
  unfold ContentLine.Lexed
  rw [hcontent]
  by_cases hnil : pad = []
  · rw [hnil, List.append_nil]
    exact ⟨pieces, hpieces⟩
  · obtain ⟨others, hothers, -⟩ := hpieces.append_pad h.ne_nil hpad hnil
    exact ⟨others, hothers⟩

theorem lexed_akin (hlines : List.Forall₂ (ContentLine.Akin R g slack) below lower)
    (h : ∀ l ∈ below, l.Lexed) : ∀ l ∈ lower, l.Lexed := by
  induction hlines with
  | nil => nofun
  | cons hline _ ih =>
    obtain ⟨hfirst, hrest⟩ := List.forall_mem_cons.1 h
    exact List.forall_mem_cons.2 ⟨hline.lexed hfirst, ih hrest⟩

/-- Lines akin have tokens akin. -/
theorem ContentLine.Akin.tokens (h : line.Akin R g slack other) {inner inner' : List Token}
    (hline : line.Spells inner) (hother : other.Spells inner') (hends : endsLine ts = true)
    (hrest : Dialogue.Akin g slack ts us) :
    Dialogue.Akin g slack (inner ++ ts) (inner' ++ us) := by
  obtain ⟨pad, hpad, hcontent, hslack⟩ := h.content
  have hnumber : ∀ u ∈ inner', u.position.line = g line.number := by
    rw [← h.number]
    exact hother.number
  have hlexes := hother.lexes
  rw [hcontent] at hlexes
  by_cases hnil : pad = []
  · rw [hnil, List.append_nil] at hlexes
    exact .of_pieces (hlexes.unique hline.lexes) hline.number hnumber hrest
  · obtain ⟨others, hothers, hpadded⟩ := hline.lexes.append_pad h.ne_nil hpad hnil
    rw [← hlexes.unique hothers] at hpadded
    exact .of_padded hpad hpadded hline.number hnumber (hslack hnil) hends hrest

theorem Spelled.endsLine {stack : List Nat} {z : List Token} (h : Spelled stack below ts)
    (hz : endsLine z = true) : endsLine (ts ++ z) = true := by
  cases h with
  | nil => exact hz
  | next breaks =>
    rw [List.cons_append]
    exact endsLine_of_newline _ breaks

/-- Lines below have tokens akin, whatever their widths are, as long as those are in the same
order. -/
theorem Spelled.akin (hR : KeepsOrder R) {stack stack' : List Nat} {z z' : List Token}
    (h : Spelled stack below ts) (h' : Spelled stack' lower us)
    (hstack : List.Forall₂ R stack stack') (hne : stack ≠ [])
    (hlines : List.Forall₂ (ContentLine.Akin R g slack) below lower)
    (hends : Dialogue.endsLine z = true) (hz : Akin g slack z z') :
    Akin g slack (ts ++ z) (us ++ z') := by
  induction h generalizing stack' lower us with
  | nil =>
    cases hlines
    cases h'
    exact hz
  | @next stack line below newline markers inner ts breaks levels here rest ih =>
    obtain _ | ⟨hline, hbelow⟩ := hlines
    cases h' with
    | @next _ _ _ newline' markers' inner' _ breaks' levels' here' rest' =>
      have hrest := ih rest' (settle_akin hR hline.width hstack hne) (settle_ne_nil _ hne) hbelow
      have hinner := hline.tokens here here' (rest.endsLine hends) hrest
      -- The levels are related, so both lines have the same markers in front of them.
      have hkinds : (newline' :: markers').map Token.kind =
          (newline :: markers).map Token.kind := by
        rw [List.map_cons, List.map_cons, breaks, breaks', levels, levels',
          markersOf_akin hR hline.width hstack hne]
      have hbreak := Akin.of_kinds hkinds (fun t => not_mem_ofLine_of_break breaks levels) hinner
      simpa only [List.cons_append, List.append_assoc] using hbreak

theorem depthBehind_akin (hR : KeepsOrder R) {stack stack' : List Nat}
    (hstack : List.Forall₂ R stack stack') (hne : stack ≠ [])
    (hlines : List.Forall₂ (ContentLine.Akin R g slack) below lower) :
    depthBehind stack' lower = depthBehind stack below := by
  induction hlines generalizing stack stack' with
  | nil =>
    show stack'.length - 1 = stack.length - 1
    rw [hstack.length_eq]
  | cons hline _ ih =>
    exact ih (settle_akin hR hline.width hstack hne) (settle_ne_nil _ hne)

theorem EndsBody.kinds {depth : Nat} {z : List Token} (h : EndsBody depth z) :
    z.map Token.kind = .replicate depth .dedent ++ [.endOfInput] := by
  cases h with
  | mk levels ends => rw [List.map_append, levels, List.map_singleton, ends]

theorem EndsBody.endsLine {depth : Nat} {z : List Token} (h : EndsBody depth z) :
    endsLine z = true :=
  h.breaks.endsLine

theorem EndsBody.not_ofLine {depth : Nat} {z : List Token} (h : EndsBody depth z) :
    ∀ t ∈ z, t.kind ∉ TokenKind.ofLine := by
  cases h with
  | @mk markers last levels ends =>
    intro t ht
    rw [← List.nil_append markers] at ht
    exact not_mem_ofLine_of_end (List.forall_mem_nil _) levels ends ht

theorem SpellsBody.akin (hR : KeepsOrder R) (h : SpellsBody line below ts)
    (h' : SpellsBody other lower us)
    (hlines : List.Forall₂ (ContentLine.Akin R g slack) (line :: below) (other :: lower)) :
    Akin g slack ts us := by
  obtain _ | ⟨hline, hbelow⟩ := hlines
  have hstack : List.Forall₂ R [line.width] [other.width] := .cons hline.width .nil
  cases h with
  | @mk inner rest z here lies ends =>
    cases h' with
    | @mk inner' rest' z' here' lies' ends' =>
      rw [depthBehind_akin hR hstack (List.cons_ne_nil _ _) hbelow] at ends'
      have hend : Akin g slack z z' := by
        have hkinds : Akin g slack (z ++ []) (z' ++ []) :=
          .of_kinds (ends'.kinds.trans ends.kinds.symm) ends.not_ofLine .nil
        rwa [List.append_nil, List.append_nil] at hkinds
      rw [List.append_assoc, List.append_assoc]
      exact hline.tokens here here' (lies.endsLine ends.endsLine)
        (lies.akin hR lies' hstack (List.cons_ne_nil _ _) hbelow ends.endsLine hend)

theorem onLine_of_endsLine (h : endsLine ts = true) (number : Nat) : OnLine number ts := by
  cases ts with
  | nil => trivial
  | cons t ts =>
    intro hk
    rw [endsLine_cons_of_kind rfl hk] at h
    cases h

theorem OnLine.append {inner : List Token} (h : OnLine number ts)
    (hline : ∀ t ∈ inner, t.position.line = number) : OnLine number (inner ++ ts) := by
  induction inner with
  | nil => exact h
  | cons t inner ih =>
    exact fun _ => ⟨hline t List.mem_cons_self, ih fun u hu => hline u (List.mem_cons_of_mem t hu)⟩

theorem Aligned.inner {inner : List Token} (h : Aligned ts) (hends : endsLine ts = true)
    (hline : ∀ t ∈ inner, t.position.line = number) : Aligned (inner ++ ts) := by
  induction inner with
  | nil => exact h
  | cons t inner ih =>
    have hrest : ∀ u ∈ inner, u.position.line = number :=
      fun u hu => hline u (List.mem_cons_of_mem t hu)
    refine ⟨fun _ => ?_, ih hrest⟩
    rw [hline t List.mem_cons_self]
    exact (onLine_of_endsLine hends number).append hrest

theorem Aligned.markers {markers : List Token} (h : Aligned ts)
    (hnone : ∀ t ∈ markers, t.kind ∉ TokenKind.ofLine) : Aligned (markers ++ ts) := by
  induction markers with
  | nil => exact h
  | cons t markers ih =>
    refine ⟨fun hk => absurd hk (hnone t List.mem_cons_self), ?_⟩
    exact ih fun u hu => hnone u (List.mem_cons_of_mem t hu)

theorem Spelled.aligned {stack : List Nat} {z : List Token} (h : Spelled stack below ts)
    (hends : Dialogue.endsLine z = true) (hz : Aligned z) : Aligned (ts ++ z) := by
  induction h with
  | nil => exact hz
  | @next _ _ _ newline markers inner ts breaks levels here rest ih =>
    have hinner := ih.inner (rest.endsLine hends) here.number
    have hbreak := hinner.markers fun t => not_mem_ofLine_of_break breaks levels
    simpa only [List.cons_append, List.append_assoc] using hbreak

theorem SpellsBody.aligned (h : SpellsBody line below ts) : Aligned ts := by
  cases h with
  | @mk inner rest z here lies ends =>
    have hend : Aligned z := by
      have hmarkers : Aligned (z ++ []) := .markers trivial ends.not_ofLine
      rwa [List.append_nil] at hmarkers
    rw [List.append_assoc]
    exact (lies.aligned ends.endsLine hend).inner (lies.endsLine ends.endsLine) here.number

/-- A body whose content lines are akin to those of another has its statements, unless blanks follow
the condition of an option. -/
theorem Statement.ofBody_akin (hR : KeepsOrder R) {body body' : List Char} {ss : List Statement}
    (hlines : List.Forall₂ (ContentLine.Akin R g slack) (contentLines body) (contentLines body'))
    (h : ofBody body = .ok ss) (hslack : ∀ number ∈ conditionedLines ss, ¬slack number) :
    ofBody body' = .ok (blockMapLines g ss) := by
  cases hfirst : contentLines body with
  | nil =>
    rw [hfirst] at hlines
    cases h.symm.trans (ofBody_of_contentLines_nil hfirst)
    exact ofBody_of_contentLines_nil (List.forall₂_nil_left_iff.1 hlines)
  | cons line below =>
    rw [hfirst] at hlines
    obtain ⟨other, lower, -, -, hother⟩ := List.forall₂_cons_left_iff.1 hlines
    rw [hother] at hlines
    have hlexed := lexed_of_ofBody h hfirst
    obtain ⟨ts, hspells, hread, -⟩ := exists_spellsBody hfirst hlexed
    obtain ⟨us, hspells', -, hread'⟩ := exists_spellsBody hother (lexed_akin hlines hlexed)
    obtain ⟨e, hfound⟩ := hread h
    exact hread' fun e' =>
      Assembly.read_akin (hspells.akin hR hspells' hlines) hspells.aligned hfound hslack e'

end

/-! ### Layout -/

theorem contentLine?_eq_some {number width : Nat} {text : List Char} {line : ContentLine}
    (h : contentLine? number width text = some line) :
    line.number = number ∧ line.content ≠ [] := by
  unfold contentLine? at h
  split at h
  · cases h
  · rename_i hcontent
    cases h
    refine ⟨rfl, fun hnil => hcontent ?_⟩
    have hall := (List.takeWhile_sublist Text.isIndent).eq_of_length_le
      (List.drop_eq_nil_iff.1 hnil)
    exact List.all_eq_true.2 (List.takeWhile_eq_self_iff.1 hall)

theorem content_ne_nil_of_mem {number : Nat} {texts : List (List Char)} {line : ContentLine}
    (h : line ∈ contentFrom number texts) : line.content ≠ [] := by
  induction texts generalizing number with
  | nil => cases h
  | cons text texts ih =>
    rcases List.mem_append.1 h with h | h
    · exact (contentLine?_eq_some (Option.mem_toList.1 h)).2
    · exact ih h

theorem numbers_increase (number : Nat) (texts : List (List Char)) :
    (contentFrom number texts).Pairwise (·.number < ·.number) := by
  induction texts generalizing number with
  | nil => exact .nil
  | cons text texts ih =>
    refine List.pairwise_append.2 ⟨?_, ih (number + 1), fun line hline lower hlower => ?_⟩
    · cases contentLine? number 0 text with
      | none => exact .nil
      | some line => exact List.pairwise_singleton _ line
    · rw [(contentLine?_eq_some (Option.mem_toList.1 hline)).1]
      exact lt_number_of_mem hlower

def ContentLine.layout (line : ContentLine) : Nat × List Char := (line.width, line.content)

theorem ContentLine.Akin.renumber {R : Nat → Nat → Prop} {g f : Nat → Nat} {slack : Nat → Prop}
    {lines others : List ContentLine} (h : List.Forall₂ (ContentLine.Akin R g slack) lines others)
    (hsame : ∀ line ∈ lines, f line.number = g line.number) :
    List.Forall₂ (ContentLine.Akin R f slack) lines others := by
  induction h with
  | nil => exact .nil
  | cons hline _ ih =>
    obtain ⟨hfirst, hrest⟩ := List.forall_mem_cons.1 hsame
    exact .cons ⟨hline.number.trans hfirst.symm, hline.width, hline.ne_nil, hline.content⟩
      (ih hrest)

theorem exists_akin_of_layout {lines others : List ContentLine}
    (h : lines.map ContentLine.layout = others.map ContentLine.layout)
    (hne : ∀ line ∈ lines, line.content ≠ []) (hnumbers : lines.Pairwise (·.number < ·.number)) :
    ∃ g, List.Forall₂ (ContentLine.Akin (· = ·) g fun _ => False) lines others := by
  induction lines generalizing others with
  | nil =>
    rw [List.map_eq_nil_iff.1 h.symm]
    exact ⟨id, .nil⟩
  | cons line lines ih =>
    obtain ⟨other, others, rfl, hlayout, hrest⟩ := List.map_eq_cons_iff.1 h.symm
    obtain ⟨hwidth, hcontent⟩ := Prod.mk.inj hlayout
    obtain ⟨hfilled, hne⟩ := List.forall_mem_cons.1 hne
    obtain ⟨hlower, hnumbers⟩ := List.pairwise_cons.1 hnumbers
    obtain ⟨g, hg⟩ := ih hrest.symm hne hnumbers
    -- No line below has this number, so the function may be changed at it.
    refine ⟨Function.update g line.number other.number,
      .cons (.of_content ?_ hwidth.symm hcontent hfilled) ?_⟩
    · rw [Function.update_self]
    · refine ContentLine.Akin.renumber hg fun below hbelow => ?_
      exact Function.update_of_ne (Nat.ne_of_gt (hlower below hbelow)) _ _

theorem eq_of_layout {lines others : List ContentLine}
    (h : lines.map ContentLine.layout = others.map ContentLine.layout)
    (hnumbers : lines.map ContentLine.number = others.map ContentLine.number) :
    lines = others := by
  have hpairs : lines.map (fun line => (line.layout, line.number)) =
      others.map fun line => (line.layout, line.number) := by
    have hzip : ∀ ls : List ContentLine, ls.map (fun line => (line.layout, line.number)) =
        (ls.map ContentLine.layout).zip (ls.map ContentLine.number) :=
      fun ls => List.zip_map'.symm
    rw [hzip, hzip, h, hnumbers]
  refine List.map_injective_iff.2 (fun line other heq => ?_) hpairs
  obtain ⟨number, width, content⟩ := line
  obtain ⟨number', width', content'⟩ := other
  cases heq
  rfl

structure ContentLine.Rewidened (R : Nat → Nat → Prop) (line other : ContentLine) : Prop where
  number : other.number = line.number
  width : R line.width other.width
  content : other.content = line.content

theorem keepsOrder_eq : KeepsOrder (· = ·) := by
  rintro a _ b _ rfl rfl
  exact Iff.rfl

theorem toOption_map_eq {ε α β : Type} {f : α → β} {x y : Except ε α}
    (h : ∀ a, x = .ok a → ∃ b, y = .ok b ∧ f b = f a)
    (h' : ∀ b, y = .ok b → ∃ a, x = .ok a ∧ f a = f b) :
    x.toOption.map f = y.toOption.map f := by
  cases x with
  | ok a =>
    obtain ⟨b, rfl, hsame⟩ := h a rfl
    exact congrArg some hsame.symm
  | error =>
    cases y with
    | ok b =>
      obtain ⟨a, heq, -⟩ := h' b rfl
      cases heq
    | error => rfl

theorem toOption_eq {ε α : Type} {x y : Except ε α} (h : ∀ a, x = .ok a → y = .ok a)
    (h' : ∀ a, y = .ok a → x = .ok a) : x.toOption = y.toOption := by
  have hsame : x.toOption.map id = y.toOption.map id :=
    toOption_map_eq (fun a hx => ⟨a, h a hx, rfl⟩) fun a hy => ⟨a, h' a hy, rfl⟩
  rwa [Option.map_id, id, id] at hsame

namespace Statement

variable {body body' : List Char}

theorem exists_of_layout {ss : List Statement}
    (h : (contentLines body).map ContentLine.layout = (contentLines body').map ContentLine.layout)
    (hread : ofBody body = .ok ss) :
    ∃ ss', ofBody body' = .ok ss' ∧ erasedBlock ss' = erasedBlock ss := by
  obtain ⟨g, hlines⟩ := exists_akin_of_layout h (fun line => content_ne_nil_of_mem)
    (numbers_increase 1 _)
  exact ⟨_, ofBody_akin keepsOrder_eq hlines hread fun _ _ => id, erasedBlock_blockMapLines g ss⟩

theorem ofBody_of_widths {R : Nat → Nat → Prop} (hR : KeepsOrder R) {ss : List Statement}
    (hlines : List.Forall₂ (ContentLine.Rewidened R) (contentLines body) (contentLines body'))
    (hread : ofBody body = .ok ss) : ofBody body' = .ok ss := by
  have hfilled : ∀ line ∈ contentLines body, line.content ≠ [] := fun _ => content_ne_nil_of_mem
  have hakin : List.Forall₂ (ContentLine.Akin R id fun _ => False) (contentLines body)
      (contentLines body') :=
    ((List.forall₂_and_left _ _).2 ⟨hfilled, hlines⟩).imp fun _ _ h =>
      .of_content h.2.number h.2.width h.2.content h.1
  rw [ofBody_akin hR hakin hread fun _ _ => id, blockMapLines_id]

/-- The order of the widths alone decides, in one body as in the other. -/
theorem toOption_ofBody_of_widths {R : Nat → Nat → Prop} (hR : KeepsOrder R)
    (hlines : List.Forall₂ (ContentLine.Rewidened R) (contentLines body) (contentLines body')) :
    (ofBody body).toOption = (ofBody body').toOption := by
  have hflip : KeepsOrder (flip R) := fun _ _ _ _ h h' => (hR h h').symm
  have hback : List.Forall₂ (ContentLine.Rewidened (flip R)) (contentLines body')
      (contentLines body) :=
    (hlines.imp fun _ _ h => ⟨h.number.symm, h.width, h.content.symm⟩).flip
  exact toOption_eq (fun ss => ofBody_of_widths hR hlines) fun ss => ofBody_of_widths hflip hback

/-- Content lines make up a body: their texts and widths its statements, and their numbers the
lines of these. -/
theorem ofBody_of_layout
    (h : (contentLines body).map ContentLine.layout = (contentLines body').map ContentLine.layout) :
    (ofBody body).toOption.map erasedBlock = (ofBody body').toOption.map erasedBlock ∧
      ((contentLines body).map ContentLine.number = (contentLines body').map ContentLine.number →
        (ofBody body).toOption = (ofBody body').toOption) := by
  constructor
  · exact toOption_map_eq (fun ss => exists_of_layout h) fun ss => exists_of_layout h.symm
  · intro hnumbers
    refine toOption_ofBody_of_widths keepsOrder_eq ?_
    rw [eq_of_layout h hnumbers]
    exact List.forall₂_same.2 fun line _ => ⟨rfl, rfl, rfl⟩

/-- Blank lines, both kinds of line breaks, and spaces in the place of tabs. -/
def looseBody : List Char := "\r\n-> a\r\n \n    b [[c|d]] <<if $x>>\r\n".toList

def tightBody : List Char := "-> a\n\t\t\t\tb [[c|d]] <<if $x>>".toList

theorem ofBody_of_layout_loose :
    (contentLines looseBody).map ContentLine.layout =
        (contentLines tightBody).map ContentLine.layout ∧
      (ofBody looseBody).toOption.map erasedBlock = (ofBody tightBody).toOption.map erasedBlock ∧
      (ofBody tightBody).toOption.isSome = true :=
  ⟨by decide, (ofBody_of_layout (by decide)).1, by cbv⟩

end Statement

end Dialogue
