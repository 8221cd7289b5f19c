import Dialogue.Proofs.Coordinates
import Dialogue.Proofs.Misfits
import Dialogue.Proofs.Parsed

/-!
# Where errors are told

An error of a body is told at the position of a token, or inside the text of a command
(`told_read`). Tokens are placed by characters, but places inside a command are told by
the bytes in front of them. So the line of an error is always a line of the body, and its
column is one of that line as long as the bytes that the command's text has in front of
the error fit into the characters from there to the end of the line
(`error_positions`). A text of characters that take one byte each keeps the column inside
the line; others may lead out of it.
-/

namespace Dialogue

theorem error_of_bind {ε α β : Type} {x : Except ε α} {f : α → Except ε β} {e : ε}
    (h : (x >>= f) = .error e) : x = .error e ∨ ∃ a, x = .ok a ∧ f a = .error e := by
  cases x with
  | error e' =>
    cases h
    exact Or.inl rfl
  | ok a => exact Or.inr ⟨a, rfl, h⟩

/-- Where the readers of these tokens tell an error: at the end of the body, at one of the tokens,
or inside a command, whose text stands behind an opening bracket. -/
inductive Told (e : BodyEnd) (ts : List Token) : Position → Prop
  | finish : Told e ts e.position
  | token {t : Token} (mem : t ∈ ts) : Told e ts t.position
  | inside {start command : Token} {rest : List Token} {p : Position}
      (here : start :: command :: rest <:+ ts) (opens : start.kind = .commandStart)
      (text : command.kind = .text) (within : command.Within p) : Told e ts p

section

variable {e : BodyEnd} {ts us : List Token} {p : Position} {err : SyntaxError}

theorem Told.mono (h : Told e ts p) (hs : ts <:+ us) : Told e us p := by
  cases h with
  | finish => exact .finish
  | token mem => exact .token (hs.subset mem)
  | inside here opens text within => exact .inside (here.trans hs) opens text within

theorem told_misfit (e : BodyEnd) (expected : Expectation) (ts : List Token) :
    Told e ts (e.misfit expected ts).position := by
  cases ts with
  | nil => exact .finish
  | cons t ts => exact .token List.mem_cons_self

theorem told_expect {kind : TokenKind} {expected : Expectation} {α : Type}
    {f : Token × List Token → Except SyntaxError α} (hs : ts <:+ us)
    (h : (e.expect kind expected ts >>= f) = .error err)
    (hf : ∀ t rest, ts = t :: rest → t :: rest <:+ us → t.kind = kind →
      f (t, rest) = .error err → Told e us err.position) : Told e us err.position := by
  obtain hexpect | ⟨⟨t, rest⟩, hexpect, hread⟩ := error_of_bind h
  · unfold BodyEnd.expect at hexpect
    split at hexpect
    · cases hexpect
      exact .finish
    · split at hexpect
      · cases hexpect
      · cases hexpect
        exact (told_misfit e _ _).mono hs
  · obtain ⟨rfl, hk⟩ := BodyEnd.of_expect hexpect
    exact hf t rest rfl hs hk hread

theorem told_trailingCondition {α : Type} {f : Option Expr × Nat → Except SyntaxError α}
    (hs : ts <:+ us) (h : (trailingCondition ts >>= f) = .error err)
    (hf : ∀ found, f found = .error err → Told e us err.position) : Told e us err.position := by
  obtain hcondition | ⟨found, -, hread⟩ := error_of_bind h
  · unfold trailingCondition at hcondition
    simp only at hcondition
    split at hcondition
    · rename_i first command last rest hdrop
      split at hcondition
      · rename_i hif
        have hwithin := Token.within_expressionAt (eq_error_of_map hcondition)
        exact .inside ((hdrop ▸ List.drop_suffix _ ts).trans hs) hif.1 hif.2.1 hwithin
      · cases hcondition
    · cases hcondition
  · exact hf found hread

theorem told_readOption {start : Token} (hs : start :: ts <:+ us)
    (h : readOption e start ts = .error err) : Told e us err.position := by
  unfold readOption at h
  refine told_expect ((List.suffix_cons start ts).trans hs) h fun label rest _ hlabel _ h => ?_
  have hrest := (List.suffix_cons label rest).trans hlabel
  simp only at h
  split at h
  · cases h
    exact .token (hlabel.subset List.mem_cons_self)
  · split at h
    · refine told_expect ((List.tail_suffix rest).trans hrest) h
        fun target behind _ htarget _ h => ?_
      refine told_expect ((List.suffix_cons target behind).trans htarget) h
        fun close last _ hclose _ h => ?_
      refine told_trailingCondition ((List.suffix_cons close last).trans hclose) h
        fun found h => ?_
      cases h
    · refine told_expect hrest h fun close last _ hclose _ h => ?_
      refine told_trailingCondition ((List.suffix_cons close last).trans hclose) h
        fun ⟨found, n⟩ h => ?_
      cases found with
      | none => cases h
      | some condition =>
        cases h
        exact .token (hs.subset List.mem_cons_self)

theorem told_readShortcut {marker : Token} (hs : marker :: ts <:+ us)
    (h : readShortcut e marker ts = .error err) : Told e us err.position := by
  unfold readShortcut at h
  refine told_expect ((List.suffix_cons marker ts).trans hs) h fun label rest _ hlabel _ h => ?_
  have hrest := (List.suffix_cons label rest).trans hlabel
  refine told_trailingCondition hrest h fun ⟨found, n⟩ h => ?_
  simp only at h
  split at h
  · cases h
    exact .token (hlabel.subset List.mem_cons_self)
  · split at h
    · cases h
      exact (told_misfit e _ _).mono ((List.drop_suffix n rest).trans hrest)
    · split at h <;> cases h

theorem told_readCommand {start : Token} (hs : start :: ts <:+ us)
    (hstart : start.kind = .commandStart) (h : readCommand e start ts = .error err) :
    Told e us err.position := by
  unfold readCommand at h
  refine told_expect ((List.suffix_cons start ts).trans hs) h
    fun command rest hts hcommand hk h => ?_
  refine told_expect ((List.suffix_cons command rest).trans hcommand) h fun _ _ _ _ _ h => ?_
  obtain hdirective | ⟨d, -, hread⟩ := error_of_bind h
  · exact .inside (hts ▸ hs) hstart hk (Token.within_readDirective hdirective)
  · cases d <;> cases hread

theorem told_readItem {t : Token} (hs : t :: ts <:+ us) (h : readItem e t ts = .error err) :
    Told e us err.position := by
  unfold readItem at h
  split at h
  · cases h
  · cases h
  · cases h
  · simp only at h
    split at h <;> cases h
  · exact told_readOption hs h
  · exact told_readShortcut hs h
  · rename_i hk
    exact told_readCommand hs hk h
  · cases h
    exact (told_misfit e _ _).mono hs

theorem position_of_clause {t : Token} {c : Clause} {n : Nat}
    (h : readItem e t ts = .ok (.clause c, n)) : c.position = t.position := by
  generalize hitem : Item.clause c = item at h
  cases itemRead_of_readItem h with
  | newline | indent | dedent | blank | text => cases hitem
  | option _ read => cases read <;> cases hitem
  | shortcut _ read =>
    cases read with
    | @read _ _ _ _ _ opens => cases opens <;> cases hitem
  | command _ read =>
    cases read with
    | @read _ _ _ d =>
      cases d <;> cases hitem
      rfl

theorem position_of_add {a : Assembly} {t : Token} {item : Item}
    (hc : ∀ c, item = .clause c → c.position = t.position) (h : a.add t item = .error err) :
    err.position = t.position := by
  cases item with
  | dedent =>
    simp only [Assembly.add, Assembly.dedent] at h
    split at h <;> cases h
    rfl
  | clause c =>
    rw [← hc c rfl]
    simp only [Assembly.add, Assembly.clause] at h
    split at h
    · split at h <;> cases h
      rfl
    · cases h
      rfl
  | space => cases h
  | indent => cases h
  | statement s => cases h
  | shortcut line label condition => cases h
  | ifStart line condition => cases h

theorem eq_of_finish {e' : SyntaxError} : ∀ {block : List Statement} {around : List Enclosing},
    Assembly.finish e' block around = .error err → err = e'
  | _, [], h => by cases h
  | _, .shortcut .. :: _, h => by
    rw [Assembly.finish] at h
    exact eq_of_finish h
  | _, .conditional .. :: _, h => by
    rw [Assembly.finish] at h
    cases h
    rfl

/-- Every error of the tokens of a body is told at one of them, or inside a command. -/
theorem told_read (e : BodyEnd) (a : Assembly) (ts : List Token) (hs : ts <:+ us)
    (h : a.read e ts = .error err) : Told e us err.position := by
  fun_induction Assembly.read e a ts with
  | case1 =>
    rw [eq_of_finish h]
    exact .finish
  | case2 a t rest hk =>
    rw [eq_of_finish h]
    exact .token (hs.subset List.mem_cons_self)
  | case3 a t rest hk err' hitem =>
    cases h
    exact told_readItem hs hitem
  | case4 a t rest hk item n hitem err' hadd =>
    cases h
    rw [position_of_add (fun c hc => position_of_clause (hc ▸ hitem)) hadd]
    exact .token (hs.subset List.mem_cons_self)
  | case5 a t rest hk item n hitem b hadd ih =>
    exact ih (((List.drop_suffix n rest).trans (List.suffix_cons t rest)).trans hs) h

end

theorem Mode.take_of_commandStart {mode : Mode} {lineStart : Bool} {cs : List Char} {n : Nat}
    (h : mode.tokenAt lineStart cs = some (.commandStart, n)) : cs.take n = ['<', '<'] := by
  cases finds_of_tokenAt h with
  | delimiter found =>
    unfold delimiter? at found
    split at found <;> cases found
    rfl

namespace Cursor

theorem Steps.text_of_commandStart {c d : Cursor} {t : Token} (h : c.Steps t d)
    (ho : c.OwesLevels) (hk : t.kind = .commandStart) : t.text = ['<', '<'] := by
  cases h with
  | owed markers => rcases ho.head markers with rfl | rfl <;> cases hk
  | lead | last | close | invalid | newline => cases hk
  | token _ _ found =>
    cases hk
    exact Mode.take_of_commandStart found

theorem text_of_commandStart (c : Cursor) (ho : c.OwesLevels) :
    ∀ t ∈ c.tokens, t.kind = .commandStart → t.text = ['<', '<'] := by
  induction c using tokens.induct with
  | case1 c more ih =>
    rw [tokens_of_not_isFinal c more]
    intro t ht hk
    rcases List.mem_cons.1 ht with rfl | ht
    · exact (steps_step c).text_of_commandStart ho hk
    · exact ih ho.step t ht hk
  | case2 c last =>
    rw [tokens_of_isFinal c (by simpa using last)]
    intro t ht hk
    obtain rfl := List.mem_singleton.1 ht
    exact (steps_step c).text_of_commandStart ho hk

end Cursor

/-! ### Places in a body -/

def ParseError.position : ParseError → Position
  | lexical e => e.position
  | syntactic e => e.position

/-- A position of a body: behind `before` as characters count, and by the bytes of `inside` to the
right of that, which holds text of a command only. -/
structure Located (body : List Char) (p : Position) (before inside after : List Char) : Prop where
  whole : body = before ++ (inside ++ after)
  newline : '\n' ∉ inside
  command : inside ≠ [] → ['<', '<'] <:+ before
  position : p = (Position.behind before).right (Text.byteLength inside)

section

variable {body : List Char} {p : Position}

theorem Body.flatMap_tokens (body : List Char) : (Body.tokens body).flatMap Token.text = body :=
  Cursor.flatMap_text_tokens (.ofBody body) (Cursor.owesLevels_ofBody body)

theorem located_token {t : Token} (ht : t ∈ Body.tokens body) :
    ∃ before after, Located body t.position before [] after := by
  obtain ⟨lead, rest, htokens⟩ := List.append_of_mem ht
  have hbody := Body.flatMap_tokens body
  have hposition := Cursor.position_of_tokens htokens
  rw [htokens, List.flatMap_append] at hbody
  exact ⟨_, _, hbody.symm, nofun, fun hne => absurd rfl hne,
    hposition.trans (Position.start_advance _)⟩

theorem located_inside {start command : Token} {rest : List Token}
    (hs : start :: command :: rest <:+ Body.tokens body) (hk : start.kind = .commandStart)
    (hn : '\n' ∉ command.text) (hp : command.Within p) :
    ∃ before inside after, Located body p before inside after := by
  obtain ⟨lead, htokens⟩ := hs
  obtain ⟨n, ⟨inside, after, htext, rfl⟩, rfl⟩ := hp
  have hmem : start ∈ Body.tokens body := by
    rw [← htokens]
    simp
  have hopen : start.text = ['<', '<'] := Cursor.text_of_commandStart (.ofBody body)
    (Cursor.owesLevels_ofBody body) start hmem hk
  have hbody := Body.flatMap_tokens body
  have hposition := @Cursor.position_of_tokens (.ofBody body) (lead ++ [start]) rest command
    (by rw [← List.append_cons]; exact htokens.symm)
  rw [← htokens, List.append_cons, List.flatMap_append, List.flatMap_cons, htext,
    List.append_assoc] at hbody
  refine ⟨_, inside, _, hbody.symm, fun hc => hn ?_, fun _ => ?_, ?_⟩
  · rw [htext]
    exact List.mem_append_left _ hc
  · rw [List.flatMap_append, List.flatMap_singleton, hopen]
    exact List.suffix_append _ _
  · rw [hposition]
    exact congrArg (Position.right · _) (Position.start_advance _)

theorem located_lexical {e : LexError} (h : Body.tokenize body = .error e) :
    ∃ before after, Located body e.position before [] after := by
  have hinvalid : ¬∀ t ∈ Body.tokens body, t.kind ≠ .invalid := by
    intro hvalid
    rw [Body.tokenize, Cursor.tokens?_eq_ok _ hvalid] at h
    cases h
  push Not at hinvalid
  obtain ⟨t, ht, hk⟩ := hinvalid
  obtain ⟨mode, herror⟩ := Cursor.tokens?_eq_error (.ofBody body) t ht hk
  rw [Body.tokenize, herror] at h
  cases h
  exact located_token ht

theorem located_told {e : BodyEnd} {ts : List Token} (ht : Body.tokenize body = .ok ts)
    (he : ∃ t ∈ ts, e.position = t.position) (h : Told e ts p) :
    ∃ before inside after, Located body p before inside after := by
  have htokens : Body.tokens body = ts := Cursor.tokens_of_tokens? ht
  cases h with
  | finish =>
    obtain ⟨t, hmem, hp⟩ := he
    obtain ⟨before, after, hlocated⟩ := located_token (htokens ▸ hmem)
    exact ⟨before, [], after, hp ▸ hlocated⟩
  | token mem =>
    obtain ⟨before, after, hlocated⟩ := located_token (htokens ▸ mem)
    exact ⟨before, [], after, hlocated⟩
  | @inside start command rest _ here opens text within =>
    obtain ⟨lead, hlead⟩ := here
    have hplaced := Cursor.placed_tokens? _ _ ht
    rw [← hlead, List.append_cons] at hplaced
    obtain ⟨q, ⟨-, hnewline, -⟩, -⟩ := hplaced.behind
    have hhere : start :: command :: rest <:+ Body.tokens body := ⟨lead, hlead.trans htokens.symm⟩
    exact located_inside hhere opens (hnewline (by rw [text]; decide)) within

/-- The error of a body lies in it, but its column may count bytes. -/
theorem located_ofBody {e : ParseError} (h : Statement.ofBody body = .error e) :
    ∃ before inside after, Located body e.position before inside after := by
  unfold Statement.ofBody at h
  split at h
  · rename_i err htokens
    cases h
    obtain ⟨before, after, hlocated⟩ := located_lexical htokens
    exact ⟨before, [], after, hlocated⟩
  · rename_i ts htokens
    split at h
    · rename_i err hread
      cases h
      obtain ⟨lead, last, rfl, -⟩ := Cursor.tokens?_eq_append_last htokens
      refine located_told htokens ⟨last, by simp, ?_⟩
        (told_read (.ofTokens (lead ++ [last])) {} _ (List.suffix_refl _) hread)
      simp [BodyEnd.ofTokens]
    · cases h

end

def lastLine (cs : List Char) : List Char := (cs.reverse.takeWhile (· ≠ '\n')).reverse

theorem lastLine_of_not_mem {cs : List Char} (h : '\n' ∉ cs) : lastLine cs = cs := by
  have hall : ∀ c ∈ cs.reverse, decide (c ≠ '\n') = true := by
    intro c hc
    exact decide_eq_true fun he => h (he ▸ List.mem_reverse.1 hc)
  rw [lastLine, List.takeWhile_eq_self_iff.2 hall, List.reverse_reverse]

theorem lastLine_cons_of_mem {cs : List Char} (c : Char) (h : '\n' ∈ c :: cs) :
    lastLine (c :: cs) = lastLine cs := by
  rw [lastLine, lastLine, List.reverse_cons, List.takeWhile_append]
  split
  · rename_i hlength
    have hall := (List.takeWhile_prefix (l := cs.reverse) (· ≠ '\n')).eq_of_length hlength
    have hcs : '\n' ∉ cs := fun hmem => by
      simpa using List.takeWhile_eq_self_iff.1 hall '\n' (List.mem_reverse.2 hmem)
    obtain rfl : '\n' = c := (List.mem_cons.1 h).resolve_right hcs
    rw [hall]
    simp
  · rfl

theorem getElem?_splitOn (before after : List Char) :
    ((before ++ after).splitOn '\n')[before.count '\n']? =
      some (lastLine before ++ after.takeWhile (· ≠ '\n')) := by
  induction before with
  | nil =>
    induction after with
    | nil => rfl
    | cons c cs ih =>
      simp only [List.nil_append, List.splitOn, List.count_nil] at ih ⊢
      rw [List.splitOnP_cons_eq_if_modifyHead]
      by_cases hc : c = '\n'
      · simp [hc, lastLine]
      · simp [List.getElem?_modifyHead, ih, hc, lastLine]
  | cons c before ih =>
    simp only [List.cons_append, List.splitOn, List.count_cons] at ih ⊢
    rw [List.splitOnP_cons_eq_if_modifyHead]
    by_cases hc : c = '\n'
    · rw [lastLine_cons_of_mem c (by simp [hc])]
      simpa [hc] using ih
    · have hcount : (before.count '\n' + if (c == '\n') = true then 1 else 0) =
          before.count '\n' := by simp [hc]
      rw [if_neg (by simpa using hc), hcount, List.getElem?_modifyHead]
      by_cases hmem : '\n' ∈ before
      · have hpos := List.count_pos_iff.2 hmem
        rw [if_neg (Nat.ne_of_gt hpos), lastLine_cons_of_mem c (List.mem_cons_of_mem c hmem)]
        exact ih
      · have hmem' : '\n' ∉ c :: before := by simp [hmem, Ne.symm hc]
        rw [if_pos (List.count_eq_zero.2 hmem), ih, lastLine_of_not_mem hmem,
          lastLine_of_not_mem hmem']
        rfl

theorem Position.column_behind (cs : List Char) :
    (behind cs).column = 1 + (lastLine cs).length := by
  rw [behind, lastLine, List.length_reverse]

theorem Text.length_le_byteLength (cs : List Char) : cs.length ≤ byteLength cs := by
  induction cs with
  | nil => exact Nat.le_refl 0
  | cons c cs ih =>
    have hpos := c.utf8Size_pos
    rw [List.length_cons, byteLength]
    omega

section

variable {body before inside after : List Char} {p : Position}

theorem Located.line (h : Located body p before inside after) :
    p.line = 1 + before.count '\n' := by
  rw [h.position]
  rfl

theorem Located.column (h : Located body p before inside after) :
    p.column = 1 + (lastLine before).length + Text.byteLength inside := by
  rw [h.position, Position.right, Position.column_behind]

theorem Located.getElem?_line (h : Located body p before inside after) :
    (body.splitOn '\n')[p.line - 1]? =
      some (lastLine before ++ (inside ++ after.takeWhile (· ≠ '\n'))) := by
  have hinside : (inside ++ after).takeWhile (· ≠ '\n') =
      inside ++ after.takeWhile (· ≠ '\n') :=
    List.takeWhile_append_of_pos fun c hc => decide_eq_true fun he => h.newline (he ▸ hc)
  rw [h.line, Nat.add_sub_cancel_left, h.whole, getElem?_splitOn, hinside]

end

/-- An error is told on a line of the body. Its column is that of the place behind `before`, counted
in characters, and so many more as the command's text has bytes up to the error. This lies in the
line exactly if those bytes are no more than the characters that follow, and it never lies outside
of the bytes of the line. -/
theorem error_positions {body : List Char} {e : ParseError}
    (h : Statement.ofBody body = .error e) :
    ∃ before inside after line, Located body e.position before inside after ∧
      1 ≤ e.position.line ∧ e.position.line ≤ 1 + body.count '\n' ∧
      (body.splitOn '\n')[e.position.line - 1]? = some line ∧
      1 ≤ e.position.column ∧ e.position.column ≤ 1 + Text.byteLength line ∧
      (e.position.column ≤ 1 + line.length ↔
        Text.byteLength inside ≤ inside.length + (after.takeWhile (· ≠ '\n')).length) := by
  obtain ⟨before, inside, after, hlocated⟩ := located_ofBody h
  have hline := hlocated.line
  have hcolumn := hlocated.column
  have hcount : body.count '\n' = before.count '\n' + (inside ++ after).count '\n' := by
    rw [hlocated.whole, List.count_append]
  refine ⟨before, inside, after, _, hlocated, by omega, by omega, hlocated.getElem?_line,
    by omega, ?_, ?_⟩
  · have hbytes := Text.length_le_byteLength (lastLine before)
    rw [hcolumn, Text.byteLength_append, Text.byteLength_append]
    omega
  · rw [hcolumn, List.length_append, List.length_append]
    omega

/-- A condition that breaks off behind letters that take two bytes each. -/
def greeting : List Char := "<<if \"ééé\"+>>".toList

/-- The error is told two columns behind the end of its line, which has 13 characters. -/
theorem error_positions_greeting :
    Statement.ofBody greeting = .error (.syntactic ⟨.expression, "'>>'", ⟨1, 15⟩⟩) ∧
      (greeting.splitOn '\n')[0]? = some greeting ∧ greeting.length = 13 ∧
      ∃ before inside after, Located greeting ⟨1, 15⟩ before inside after ∧
        ¬Text.byteLength inside ≤ inside.length + (after.takeWhile (· ≠ '\n')).length := by
  have herror : Statement.ofBody greeting = .error (.syntactic ⟨.expression, "'>>'", ⟨1, 15⟩⟩) := by
    cbv
  obtain ⟨before, inside, after, line, hlocated, -, -, hline, -, -, hiff⟩ := error_positions herror
  have hgreeting : (greeting.splitOn '\n')[0]? = some greeting := by decide
  obtain rfl : greeting = line := Option.some.inj (hgreeting.symm.trans hline)
  refine ⟨herror, hgreeting, by decide, before, inside, after, hlocated, fun hle => ?_⟩
  exact absurd (hiff.2 hle) (by decide)

end Dialogue
