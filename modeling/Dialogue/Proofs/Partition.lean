import Dialogue.Proofs.Patterns

/-!
# What a scan cuts a source into

The lexemes of a source stand one behind another, each over the longest text that a rule
matches where it begins, and all that lies between them is blank (`Cuts`). A scan that
fails has cut up the source in the same way, up to a place where no rule matches. The
argument goes from the end of the source to its beginning: a blank or a lexeme in front
of what has been cut up leaves it cut up.
-/

namespace Dialogue

open Text (byteLength byteLength_append)

theorem Text.byteLength_pos {cs : List Char} (h : cs ≠ []) : 0 < byteLength cs := by
  obtain ⟨c, rest, rfl⟩ := List.exists_cons_of_ne_nil h
  have hc := c.utf8Size_pos
  rw [byteLength]
  omega

namespace Expr

def blank : Set Char := {' ', '\t', '\r', '\n', '\x0c'}

theorem mem_blank (c : Char) : c ∈ blank ↔ isSkipped c = true := by
  simp [blank, isSkipped, or_assoc]

/-- A text that begins `offset` bytes into a source is cut into lexemes down to the byte `stop`:
none is empty, they lie one behind another on the borders of characters, each covers the longest
text that a rule matches where it begins, and every character outside of them is blank. -/
structure Cuts (offset : Nat) (cs : List Char) (stop : Nat) (lexemes : List Lexeme) : Prop where
  ordered : lexemes.Pairwise fun l m => l.stop ≤ m.start
  bounds : ∀ l ∈ lexemes, offset ≤ l.start ∧ l.start < l.stop ∧ l.stop ≤ stop
  longest : ∀ l ∈ lexemes, ∃ before text rest, cs = before ++ (text ++ rest) ∧
    l.start = offset + byteLength before ∧ l.stop = l.start + byteLength text ∧
    Longest (text ++ rest) text l.token
  outside : ∀ before c rest, cs = before ++ c :: rest → offset + byteLength before < stop →
    (∀ l ∈ lexemes, offset + byteLength before < l.start ∨ l.stop ≤ offset + byteLength before) →
    c ∈ blank

/-- A scan gives up on a text that begins where no rule matches and nothing is skipped. -/
structure Fails (offset : Nat) (cs : List Char) (e : ScanError) : Prop where
  nonempty : e.start < e.stop
  located : ∃ before rest, cs = before ++ (e.text ++ rest) ∧
    e.start = offset + byteLength before ∧ e.stop = e.start + byteLength e.text ∧
    (∀ c ∈ e.text.head?, c ∉ blank) ∧
    ∀ rule ∈ rules, ∀ text ∈ rule.language, ¬text <+: e.text ++ rest

section

variable {offset stop n : Nat} {c : Char} {cs text rest : List Char} {lexemes : List Lexeme}
  {t : Token} {e : ScanError}

theorem cuts_here (offset : Nat) (cs : List Char) : Cuts offset cs offset [] where
  ordered := .nil
  bounds := nofun
  longest := nofun
  outside := by
    intro before c rest _ hlt
    omega

theorem Cuts.skip (h : Cuts (offset + c.utf8Size) cs stop lexemes) (hc : c ∈ blank) :
    Cuts offset (c :: cs) stop lexemes where
  ordered := h.ordered
  bounds := by
    intro l hl
    have hbounds := h.bounds l hl
    omega
  longest := by
    intro l hl
    obtain ⟨before, text, rest, rfl, hstart, hlongest⟩ := h.longest l hl
    refine ⟨c :: before, text, rest, rfl, ?_, hlongest⟩
    rw [hstart, byteLength, Nat.add_assoc]
  outside := by
    intro before d rest hcs hlt hout
    cases before with
    | nil =>
      cases hcs
      exact hc
    | cons b before =>
      obtain ⟨rfl, htail⟩ := List.cons.inj hcs
      rw [byteLength, ← Nat.add_assoc] at hlt hout
      exact h.outside before d rest htail hlt hout

theorem Cuts.token (h : Cuts (offset + byteLength text) rest stop lexemes)
    (ht : Longest (text ++ rest) text t) (hne : text ≠ [])
    (hstop : offset + byteLength text ≤ stop) :
    Cuts offset (text ++ rest) stop (⟨t, offset, offset + byteLength text⟩ :: lexemes) where
  ordered := List.pairwise_cons.2 ⟨fun l hl => (h.bounds l hl).1, h.ordered⟩
  bounds := by
    have hpos := Text.byteLength_pos hne
    refine List.forall_mem_cons.2 ⟨⟨Nat.le_refl _, by simp only; omega, hstop⟩, fun l hl => ?_⟩
    have hbounds := h.bounds l hl
    omega
  longest := by
    refine List.forall_mem_cons.2 ⟨⟨[], text, rest, rfl, rfl, rfl, ht⟩, fun l hl => ?_⟩
    obtain ⟨before, text', rest', rfl, hstart, hlongest⟩ := h.longest l hl
    refine ⟨text ++ before, text', rest', (List.append_assoc _ _ _).symm, ?_, hlongest⟩
    rw [hstart, byteLength_append, Nat.add_assoc]
  outside := by
    intro before d behind hcs hlt hout
    obtain ⟨hfirst, hothers⟩ := List.forall_mem_cons.1 hout
    simp only at hfirst
    -- The place lies behind the text, since the lexeme over the text does not cover it.
    obtain ⟨between, rfl, hrest⟩ : ∃ between, before = text ++ between ∧
        rest = between ++ d :: behind := by
      obtain ⟨between, hbefore, hrest⟩ | ⟨between, htext, hbehind⟩ :=
        List.append_eq_append_iff.1 hcs
      · exact ⟨between, hbefore, hrest⟩
      · cases between with
        | nil => exact ⟨[], by simpa using htext.symm, by simpa using hbehind.symm⟩
        | cons b between =>
          have hpos := Text.byteLength_pos (List.cons_ne_nil b between)
          rw [htext, byteLength_append] at hfirst
          omega
    rw [byteLength_append, ← Nat.add_assoc] at hlt hothers
    exact h.outside between d behind hrest hlt hothers

theorem Fails.behind (h : Fails (offset + byteLength text) rest e) :
    Fails offset (text ++ rest) e where
  nonempty := h.nonempty
  located := by
    obtain ⟨before, behind, rfl, hstart, hfound⟩ := h.located
    refine ⟨text ++ before, behind, (List.append_assoc _ _ _).symm, ?_, hfound⟩
    rw [hstart, byteLength_append, Nat.add_assoc]

theorem errorLength_pos (cs : List Char) : 0 < errorLength cs := by
  unfold errorLength
  split <;> omega

/-- The token that the scanner takes stands in front of what is left. -/
theorem Cuts.take (h : tokenAt (c :: cs) = some (t, n))
    (hc : Cuts (offset + byteLength ((c :: cs).take n)) ((c :: cs).drop n) stop lexemes)
    (hstop : offset + byteLength ((c :: cs).take n) ≤ stop) :
    Cuts offset (c :: cs) stop
      (⟨t, offset, offset + byteLength ((c :: cs).take n)⟩ :: lexemes) := by
  have hlongest := longest_of_tokenAt h
  have hne : (c :: cs).take n ≠ [] := by
    have hpos := tokenAt_length_pos _ _ _ h
    simp [Nat.ne_of_gt hpos]
  have hcs := List.take_append_drop n (c :: cs)
  generalize (c :: cs).take n = text at *
  generalize (c :: cs).drop n = rest at *
  rw [← hcs] at hlongest ⊢
  exact hc.token hlongest hne hstop

/-- A scan that succeeds cuts up the whole text. -/
theorem cuts_of_scanFrom (offset : Nat) (cs : List Char) (lexemes : List Lexeme)
    (h : scanFrom offset cs = .ok lexemes) :
    Cuts offset cs (offset + byteLength cs) lexemes := by
  fun_induction scanFrom offset cs generalizing lexemes with
  | case1 offset =>
    cases h
    exact cuts_here offset []
  | case2 offset c rest hs ih =>
    have hcuts := (ih lexemes h).skip ((mem_blank c).2 hs)
    rwa [Nat.add_assoc] at hcuts
  | case3 => cases h
  | case4 offset c rest hs t n found stop more hmore ih =>
    cases h
    have hlength : byteLength ((c :: rest).take n) + byteLength ((c :: rest).drop n) =
        byteLength (c :: rest) := by
      rw [← byteLength_append, List.take_append_drop]
    have hcuts := ih more hmore
    rw [Nat.add_assoc, hlength] at hcuts
    exact hcuts.take found (by omega)
  | case5 => cases h

/-- A scan that fails has cut up the text in front of its error. -/
theorem fails_of_scanFrom (h : scanFrom offset cs = .error e) :
    Fails offset cs e ∧ ∃ lexemes, Cuts offset cs e.start lexemes := by
  fun_induction scanFrom offset cs with
  | case1 => cases h
  | case2 offset c rest hs ih =>
    obtain ⟨hfails, lexemes, hcuts⟩ := ih h
    refine ⟨?_, lexemes, hcuts.skip ((mem_blank c).2 hs)⟩
    exact @Fails.behind offset [c] rest e hfails
  | case3 offset c rest hs none text =>
    cases h
    have hne : text ≠ [] := by
      have hpos := errorLength_pos (c :: rest)
      simp [text, Nat.ne_of_gt hpos]
    have hpos := Text.byteLength_pos hne
    refine ⟨⟨by simp only; omega, [], (c :: rest).drop (errorLength (c :: rest)),
      (List.take_append_drop _ _).symm, rfl, rfl, ?_, ?_⟩, [], cuts_here offset _⟩
    · intro d hd
      rw [List.head?_take, if_neg (Nat.ne_of_gt (errorLength_pos _))] at hd
      cases hd
      exact fun hblank => hs ((mem_blank c).1 hblank)
    · intro rule hr other hother
      rw [List.take_append_drop]
      exact not_begins_of_tokenAt none hr hother
  | case4 => cases h
  | case5 offset c rest hs t n found stop e' he ih =>
    cases h
    obtain ⟨hfails, lexemes, hcuts⟩ := ih he
    have hbehind := hfails.behind
    rw [List.take_append_drop] at hbehind
    obtain ⟨before, behind, -, hstart, -⟩ := hfails.located
    exact ⟨hbehind, _, hcuts.take found (by rw [hstart]; omega)⟩

end

/-- A source that is scanned is cut into its lexemes as a whole. A scan that fails has cut up the
source in the same way up to its error, which covers a text of the source that begins where no rule
matches. -/
theorem scan_partitions (source : List Char) :
    match scan source with
    | .ok lexemes => Cuts 0 source (byteLength source) lexemes
    | .error e => Fails 0 source e ∧ ∃ lexemes, Cuts 0 source e.start lexemes := by
  split
  · rename_i lexemes h
    have hcuts := cuts_of_scanFrom 0 source lexemes h
    rwa [Nat.zero_add] at hcuts
  · rename_i e h
    exact fails_of_scanFrom h

/-- A keyword at the beginning of a longer word is no token, and a character may have two bytes. -/
example : scan "is island<=\"é\"".toList = .ok
    [⟨.symbol .equalEqual, 0, 2⟩, ⟨.name "island", 3, 9⟩, ⟨.symbol .lessEqual, 9, 11⟩,
      ⟨.literal (.string "é"), 11, 15⟩] := by
  cbv

end Expr

end Dialogue
