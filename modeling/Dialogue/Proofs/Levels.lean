import Dialogue.Proofs.Joining
import Dialogue.Proofs.Taking

/-!
# Blocks and levels of indentation

The markers among the tokens of a body open and close levels, and so does the reader
that puts its statements together. At every point of the way it has as many levels
open as the tokens behind it have opened and not closed, so each marker that closes
a level finds one, and at the end of the body all of them are closed, and with them
all shortcut options (`Assembly.blocks_follow_levels`). A reader that gave up where
this fails would read every body as the reader does that goes on.
-/

namespace Dialogue

def indents (ts : List Token) : Nat := ts.countP (·.kind = .indent)

def dedents (ts : List Token) : Nat := ts.countP (·.kind = .dedent)

section

variable {depth less : Nat} {t : Token} {read rest : List Token}

theorem closes_indent (hk : t.kind = .indent) :
    Closes depth (t :: rest) ↔ Closes (depth + 1) rest := by
  simp only [Closes, hk]

theorem closes_dedent (hk : t.kind = .dedent) :
    Closes depth (t :: rest) ↔ ∃ less, depth = less + 1 ∧ Closes less rest := by
  simp only [Closes, hk]

theorem Closes.unique (h : Closes depth rest) (h' : Closes less rest) : depth = less := by
  induction rest generalizing depth less with
  | nil => exact h.trans h'.symm
  | cons t rest ih =>
    by_cases hi : t.kind = .indent
    · have hnext := ih ((closes_indent hi).1 h) ((closes_indent hi).1 h')
      omega
    · by_cases hd : t.kind = .dedent
      · obtain ⟨m, rfl, hm⟩ := (closes_dedent hd).1 h
        obtain ⟨n, rfl, hn⟩ := (closes_dedent hd).1 h'
        have hnext := ih hm hn
        omega
      · exact ih (closes_cons hi hd h) (closes_cons hi hd h')

theorem Closes.exists_behind (h : Closes depth (read ++ rest)) :
    ∃ behind, Closes behind rest ∧ depth + indents read = behind + dedents read := by
  induction read generalizing depth with
  | nil => exact ⟨depth, h, rfl⟩
  | cons t read ih =>
    rw [List.cons_append] at h
    simp only [indents, dedents, List.countP_cons] at ih ⊢
    by_cases hi : t.kind = .indent
    · obtain ⟨behind, hbehind, hcount⟩ := ih ((closes_indent hi).1 h)
      refine ⟨behind, hbehind, ?_⟩
      simp only [hi, decide_true, if_true, reduceCtorEq, decide_false, Bool.false_eq_true, if_false]
      omega
    · by_cases hd : t.kind = .dedent
      · obtain ⟨m, rfl, hm⟩ := (closes_dedent hd).1 h
        obtain ⟨behind, hbehind, hcount⟩ := ih hm
        refine ⟨behind, hbehind, ?_⟩
        simp only [hd, decide_true, if_true, reduceCtorEq, decide_false, Bool.false_eq_true,
          if_false]
        omega
      · obtain ⟨behind, hbehind, hcount⟩ := ih (closes_cons hi hd h)
        refine ⟨behind, hbehind, ?_⟩
        simp only [hi, hd, decide_false, Bool.false_eq_true, if_false]
        omega

end

section

variable {t : Token} {item : Item} {used behind : List Token} {depth : Nat}

theorem level_of_inner {u : Token} (h : u.kind ∈ TokenKind.inner) :
    u.kind ≠ .indent ∧ u.kind ≠ .dedent := by
  obtain ⟨-, hi, hd, -⟩ := TokenKind.of_mem_inner h
  exact ⟨hi, hd⟩

theorem LineTaken.closes {label : Token} {found : Option Expr} {opens : Bool}
    (h : LineTaken opens used behind) (hc : Closes depth (used ++ behind)) :
    ∃ further, (shortcutItem t label found opens).Shifts depth further ∧
      Closes further behind := by
  cases h with
  | deeper _ breaks level =>
    have hlevel := closes_cons (by simp [breaks]) (by simp [breaks]) hc
    exact ⟨depth + 1, rfl, (closes_indent level).1 hlevel⟩
  | level breaks _ => exact ⟨depth, rfl, closes_cons (by simp [breaks]) (by simp [breaks]) hc⟩
  | last => exact ⟨depth, rfl, hc⟩

theorem Taken.closes (h : Taken t item used behind) (hc : Closes depth (t :: (used ++ behind))) :
    ∃ further, item.Shifts depth further ∧ Closes further behind := by
  have hline : ∀ us rest : List Token, (∀ u ∈ us, u.kind ∈ TokenKind.inner) →
      t.kind ≠ .indent → t.kind ≠ .dedent → Closes depth (t :: (us ++ rest)) →
      Closes depth rest := fun us rest hus hi hd hclose =>
    (closes_cons hi hd hclose).behind fun u hu => level_of_inner (hus u hu)
  have hkinds := h.kinds
  cases h with
  | indent _ kind => exact ⟨depth + 1, rfl, (closes_indent kind).1 hc⟩
  | dedent _ kind => exact (closes_dedent kind).1 hc
  | newline _ kind | blank _ kind | text _ kind | link _ kind =>
    exact ⟨depth, rfl, hline _ _ (hkinds (by simp [kind])) (by simp [kind]) (by simp [kind]) hc⟩
  | option kind =>
    exact ⟨depth, rfl, hline _ _ (hkinds (by simp [kind])) (by simp [kind]) (by simp [kind]) hc⟩
  | @command _ _ _ d kind =>
    refine ⟨depth, ?_, hline _ _ (hkinds (by simp [kind])) (by simp [kind]) (by simp [kind]) hc⟩
    cases d <;> rfl
  | @shortcut label inner breaks _ found opens kind text condition line =>
    refine line.closes (hline (label :: inner) _ ?_ (by simp [kind]) (by simp [kind]) ?_)
    · intro u hu
      rcases List.mem_cons.1 hu with rfl | hu
      · rw [text]
        decide
      · exact condition.kinds u hu
    · rw [List.cons_append, List.append_assoc] at hc
      exact hc

end

/-! ### Points of reading -/

namespace Assembly

/-- Reading item after item takes the statements from `a`, with the tokens of the first list
left, to `b` with those of the second. -/
inductive Reaches (e : BodyEnd) : Assembly → List Token → Assembly → List Token → Prop
  | here (a : Assembly) (tokens : List Token) : Reaches e a tokens a tokens
  | next {a b c : Assembly} {t : Token} {rest left : List Token} {item : Item} {n : Nat}
      (first : readItem e t rest = .ok (item, n)) (added : a.add t item = .ok b)
      (further : Reaches e b (rest.drop n) c left) : Reaches e a (t :: rest) c left

variable {e : BodyEnd} {a b : Assembly} {t last : Token} {tokens rest left : List Token}
  {item : Item} {n : Nat} {found : List Statement}

theorem Reaches.suffix (h : Reaches e a tokens b left) : left <:+ tokens := by
  induction h with
  | here => exact List.suffix_rfl
  | @next _ _ _ t rest _ _ n _ _ _ ih =>
    exact ih.trans ((List.drop_suffix n rest).trans (List.suffix_cons t rest))

theorem Reaches.read (h : Reaches e a tokens b left) : a.read e tokens = b.read e left := by
  induction h with
  | here => rfl
  | next first added _ ih => exact (read_item first added).trans ih

/-- The levels among the statements are those that the tokens left close. -/
structure InStep (a : Assembly) (left : List Token) : Prop where
  matched : a.Matched
  closes : Closes a.levels.length left

/-- An item keeps the levels of statements and tokens in step. -/
theorem InStep.add (h : a.InStep (t :: rest)) (hitem : readItem e t rest = .ok (item, n))
    (hadd : a.add t item = .ok b) : b.InStep (rest.drop n) := by
  obtain ⟨used, behind, rfl, rfl, htaken⟩ := taken_of_readItem hitem
  obtain ⟨depth, hshifts, hbehind⟩ := htaken.closes h.closes
  refine ⟨h.matched.add hadd, ?_⟩
  rw [add_levels hadd hshifts, List.drop_left]
  exact hbehind

/-- The levels are in step at every point of the way. -/
theorem Reaches.inStep (h : Reaches e a tokens b left) (ha : a.InStep tokens) : b.InStep left := by
  induction h with
  | here => exact ha
  | next first added _ ih => exact ih (ha.add first added)

theorem InStep.levels_ne_nil (h : a.InStep (t :: rest)) (hk : t.kind = .dedent) :
    a.levels ≠ [] := by
  obtain ⟨less, hless, -⟩ := (closes_dedent hk).1 h.closes
  intro hnil
  rw [hnil] at hless
  cases hless

theorem InStep.levels_eq_nil (h : a.InStep [last]) (hk : last.kind = .endOfInput) :
    a.levels = [] ∧ ∀ enclosing ∈ a.around, isShortcut enclosing = false := by
  have hclosed : a.levels.length = 0 :=
    closes_cons (by simp [hk]) (by simp [hk]) h.closes
  have hlevels := List.length_eq_zero_iff.1 hclosed
  refine ⟨hlevels, fun enclosing hmem => ?_⟩
  have hcount := h.matched
  rw [Matched, hlevels, List.count_nil, eq_comm, List.countP_eq_zero] at hcount
  simpa using hcount enclosing hmem

theorem ne_endOfInput_of_readItem (h : readItem e t rest = .ok (item, n)) :
    t.kind ≠ .endOfInput := by
  intro hk
  simp [readItem, hk] at h

theorem ended_drop (hended : Ended (t :: rest)) (hitem : readItem e t rest = .ok (item, n)) :
    Ended (rest.drop n) := by
  obtain ⟨used, behind, rfl, rfl, htaken⟩ := taken_of_readItem hitem
  rw [List.drop_left]
  exact htaken.ended (ne_endOfInput_of_readItem hitem) hended

theorem Reaches.ended (h : Reaches e a tokens b left) (hended : Ended tokens) : Ended left := by
  induction h with
  | here => exact hended
  | next first _ _ ih => exact ih (ended_drop hended first)

/-- A body that is read is read up to its last token, and all that it opens is closed there. -/
theorem exists_reaches_last (ha : a.InStep tokens) (hended : Ended tokens)
    (h : a.read e tokens = .ok found) :
    ∃ last, last.kind = .endOfInput ∧ Reaches e a tokens ⟨found, [], []⟩ [last] := by
  fun_induction read e a tokens with
  | case1 => exact hended.elim
  | case2 a t rest hk =>
    rw [Ended, if_pos hk] at hended
    subst hended
    have hread : a.read e [t] = .ok found := by
      rw [read, if_pos hk]
      exact h
    rw [eq_of_read_last ha.matched (ha.levels_eq_nil hk).1 hk hread]
    exact ⟨t, hk, .here _ _⟩
  | case3 => cases h
  | case4 => cases h
  | case5 a t rest _ item n hitem b hadd ih =>
    obtain ⟨last, hlast, hreaches⟩ := ih (ha.add hitem hadd) (ended_drop hended hitem) h
    exact ⟨last, hlast, .next hitem hadd hreaches⟩

/-! ### A reader that insists -/

def finishStrictly (e : SyntaxError) (a : Assembly) : Option (Except SyntaxError (List Statement)) :=
  match a.around with
  | .shortcut .. :: _ => none
  | _ => some (finish e a.block a.around)

/-- Reads as `read` does, but gives up at the end of a level that has not been opened, and where
the body ends inside of a shortcut option. -/
def readStrictly (e : BodyEnd) (a : Assembly) (tokens : List Token) :
    Option (Except SyntaxError (List Statement)) :=
  match tokens with
  | [] => a.finishStrictly (e.misfit .endif [])
  | t :: rest =>
    if t.kind = .endOfInput then a.finishStrictly (e.misfit .endif [t])
    else if t.kind = .dedent ∧ a.levels = [] then none
    else
      match readItem e t rest with
      | .error err => some (.error err)
      | .ok (item, n) =>
        match a.add t item with
        | .error err => some (.error err)
        | .ok a => readStrictly e a (rest.drop n)
termination_by tokens.length
decreasing_by
  simp only [List.length_drop, List.length_cons]
  omega

theorem finishStrictly_eq {err : SyntaxError}
    (h : ∀ enclosing ∈ a.around, isShortcut enclosing = false) :
    a.finishStrictly err = some (finish err a.block a.around) := by
  unfold finishStrictly
  split
  · rename_i haround
    have hfirst := h _ (by rw [haround]; exact List.mem_cons_self)
    cases hfirst
  · rfl

theorem readStrictly_eq (ha : a.InStep tokens) (hended : Ended tokens) :
    a.readStrictly e tokens = some (a.read e tokens) := by
  have hdedent : ∀ (a : Assembly) t rest, a.InStep (t :: rest) →
      ¬(t.kind = .dedent ∧ a.levels = []) :=
    fun a t rest hstep hempty => hstep.levels_ne_nil hempty.1 hempty.2
  fun_induction read e a tokens with
  | case1 => exact hended.elim
  | case2 a t rest hk =>
    rw [Ended, if_pos hk] at hended
    subst hended
    rw [readStrictly, if_pos hk, finishStrictly_eq (ha.levels_eq_nil hk).2]
  | case3 a t rest hk err hitem =>
    rw [readStrictly, if_neg hk, if_neg (hdedent a t rest ha), hitem]
  | case4 a t rest hk item n hitem err hadd =>
    rw [readStrictly, if_neg hk, if_neg (hdedent a t rest ha), hitem]
    simp only [hadd]
  | case5 a t rest hk item n hitem b hadd ih =>
    rw [readStrictly, if_neg hk, if_neg (hdedent a t rest ha), hitem]
    simp only [hadd]
    exact ih (ha.add hitem hadd) (ended_drop hended hitem)

end Assembly

theorem Statement.exists_tokens_of_ofBody {body : List Char} {ss : List Statement}
    (h : ofBody body = .ok ss) :
    ∃ tokens, Body.tokenize body = .ok tokens ∧ ofTokens tokens = .ok ss := by
  unfold ofBody at h
  split at h
  · cases h
  · rename_i tokens htokens
    split at h
    · cases h
    · rename_i hread
      cases h
      exact ⟨tokens, htokens, hread⟩

namespace Cursor

theorem tokens_of_tokenize {body : List Char} {tokens : List Token}
    (h : Body.tokenize body = .ok tokens) :
    ∃ lead rest, tokens = lead ++ rest ∧ (opened body).tokens? = .ok rest ∧
      (lead = [] ∨ lead = [(ofBody body).cut .newline (blankLength body)]) := by
  rcases tokens?_or_walks_opened body with htokens | hwalk
  · exact ⟨[], tokens, rfl, htokens.symm.trans h, Or.inl rfl⟩
  · obtain ⟨rest, hrest, heq⟩ := exists_of_map_eq_ok (hwalk.tokens?.symm.trans h)
    exact ⟨_, rest, heq.symm, hrest, Or.inr rfl⟩

theorem closes_tokenize {body : List Char} {tokens : List Token}
    (h : Body.tokenize body = .ok tokens) : Closes 0 tokens :=
  closes_tokens? (owesLevels_ofBody body) ((opens_iff rfl).2 rfl) h

theorem ended_tokenize {body : List Char} {tokens : List Token}
    (h : Body.tokenize body = .ok tokens) : Ended tokens := by
  obtain ⟨before, last, rfl, hlast, hbefore⟩ := tokens?_eq_append_last h
  exact ended_append_last hlast hbefore

end Cursor

namespace Assembly

/-- What holds at a point of reading, with these tokens behind and in front of it: the levels
that are open are those that the tokens have opened and not closed, a marker that closes a level
finds one, and where the body ends no level and no shortcut option is open. -/
structure FollowsLevels (a : Assembly) (read left : List Token) : Prop where
  count : indents read = a.levels.length + dedents read
  dedent : ∀ t ∈ left.head?, t.kind = .dedent → a.levels ≠ []
  last : ∀ t ∈ left.head?, t.kind = .endOfInput →
    a.levels = [] ∧ ∀ enclosing ∈ a.around, isShortcut enclosing = false

theorem InStep.followsLevels {a : Assembly} {read left : List Token} (h : a.InStep left)
    (hended : Ended left) (hcloses : Closes 0 (read ++ left)) : a.FollowsLevels read left where
  count := by
    obtain ⟨behind, hbehind, hcount⟩ := hcloses.exists_behind
    have hlevels := hbehind.unique h.closes
    omega
  dedent := by
    intro t ht hk
    obtain ⟨rest, rfl⟩ := List.head?_eq_some_iff.1 ht
    exact h.levels_ne_nil hk
  last := by
    intro t ht hk
    obtain ⟨rest, rfl⟩ := List.head?_eq_some_iff.1 ht
    rw [Ended, if_pos hk] at hended
    subst hended
    exact h.levels_eq_nil hk

/-- On the tokens of a body the levels of the reader are those of the tokens, at every point of the
way; a body that is read is read to its end, with nothing left open; and a reader that gives up
where levels do not match reads every body in the same way. -/
theorem blocks_follow_levels {body : List Char} {tokens : List Token}
    (h : Body.tokenize body = .ok tokens) :
    (∀ a left, Reaches (.ofTokens tokens) {} tokens a left →
        ∃ read, tokens = read ++ left ∧ a.FollowsLevels read left) ∧
      (∀ found, Statement.ofTokens tokens = .ok found →
        ∃ last, last.kind = .endOfInput ∧
          Reaches (.ofTokens tokens) {} tokens ⟨found, [], []⟩ [last]) ∧
      readStrictly (.ofTokens tokens) {} tokens = some (Statement.ofTokens tokens) := by
  have hcloses := Cursor.closes_tokenize h
  have hended := Cursor.ended_tokenize h
  have hstart : InStep {} tokens := ⟨rfl, hcloses⟩
  refine ⟨fun a left hreaches => ?_, fun found hfound => exists_reaches_last hstart hended hfound,
    readStrictly_eq hstart hended⟩
  obtain ⟨read, rfl⟩ := hreaches.suffix
  exact ⟨read, rfl, (hreaches.inStep hstart).followsLevels (hreaches.ended hended) hcloses⟩

/-- A conditional ends two levels deep, inside of a level that nobody has opened. -/
def stairs : List Char :=
  "-> Up\n\t<<if $x>>\n\t\tLook.\n\t\t<<endif>>\n\t\tWait.\nDown.".toList

theorem blocks_follow_levels_stairs :
    ∃ tokens last, Body.tokenize stairs = .ok tokens ∧ indents tokens = 2 ∧ dedents tokens = 2 ∧
      last.kind = .endOfInput ∧ Reaches (.ofTokens tokens) {} tokens
        ⟨[.shortcut 1 "Up" none [.conditional 2 [.mk 2 (some (.var 2 "x")) [.text 3 "Look."]],
          .text 5 "Wait."], .text 6 "Down."], [], []⟩ [last] := by
  have htokens : Body.tokenize stairs = .ok (Body.tokens stairs) := by cbv
  have hread : Statement.ofTokens (Body.tokens stairs) = .ok
      [.shortcut 1 "Up" none [.conditional 2 [.mk 2 (some (.var 2 "x")) [.text 3 "Look."]],
        .text 5 "Wait."], .text 6 "Down."] := by cbv
  obtain ⟨last, hlast, hreaches⟩ := (blocks_follow_levels htokens).2.1 _ hread
  exact ⟨_, last, htokens, by cbv, by cbv, hlast, hreaches⟩

end Assembly

end Dialogue
