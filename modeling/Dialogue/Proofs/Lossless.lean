import Dialogue.Proofs.Steps

/-!
# Nothing is lost in lexing

A step of a cursor cuts its token off the text that is left, and a last token
leaves nothing behind. Whatever calls walk through a body, the texts they hand
out therefore begin the body, and make up all of it once the walk has come to its
end or to an error (`lexing_loses_nothing`).
-/

namespace Dialogue

namespace Cursor

theorem tokens_of_isFinal (c : Cursor) (h : c.step.1.kind.isFinal = true) :
    c.tokens = [c.step.1] := by
  rw [tokens, dif_neg (by simp [h])]

theorem tokens_of_not_isFinal (c : Cursor) (h : c.step.1.kind.isFinal = false) :
    c.tokens = c.step.1 :: c.step.2.tokens := by
  rw [tokens, dif_pos h]

theorem tokens?_of_not_isFinal (c : Cursor) (h : c.step.1.kind.isFinal = false) :
    c.tokens? = c.step.2.tokens?.map (c.step.1 :: ·) := by
  rw [tokens?, dif_pos h]
  cases c.step.2.tokens? <;> rfl

theorem flatMap_text_tokens (c : Cursor) (ho : c.OwesLevels) :
    c.tokens.flatMap Token.text = c.rest := by
  induction c using tokens.induct with
  | case1 c more ih =>
    rw [tokens_of_not_isFinal c more, List.flatMap_cons, ih ho.step]
    exact step_text_append_rest c
  | case2 c last =>
    have hf : c.step.1.kind.isFinal = true := by simpa using last
    have hr := step_text_append_rest c
    rw [(steps_step c).rest_of_isFinal ho hf, List.append_nil] at hr
    rw [tokens_of_isFinal c hf]
    simpa using hr

theorem tokens_eq_append_last (c : Cursor) :
    ∃ before last, c.tokens = before ++ [last] ∧ last.kind.isFinal = true ∧
      ∀ t ∈ before, t.kind.isFinal = false := by
  induction c using tokens.induct with
  | case1 c more ih =>
    obtain ⟨before, last, ht, hl, hb⟩ := ih
    refine ⟨c.step.1 :: before, last, ?_, hl, ?_⟩
    · rw [tokens_of_not_isFinal c more, ht, List.cons_append]
    · intro t hm
      rcases List.mem_cons.1 hm with he | hm
      · rw [he]
        exact more
      · exact hb t hm
  | case2 c last =>
    have hf : c.step.1.kind.isFinal = true := by simpa using last
    exact ⟨[], c.step.1, tokens_of_isFinal c hf, hf, by simp⟩

theorem tokens?_eq_ok (c : Cursor) (h : ∀ t ∈ c.tokens, t.kind ≠ .invalid) :
    c.tokens? = .ok c.tokens := by
  induction c using tokens.induct with
  | case1 c more ih =>
    rw [tokens_of_not_isFinal c more] at h ⊢
    rw [tokens?_of_not_isFinal c more, ih fun t ht => h t (List.mem_cons_of_mem _ ht)]
    rfl
  | case2 c last =>
    have hf : c.step.1.kind.isFinal = true := by simpa using last
    rw [tokens_of_isFinal c hf] at h ⊢
    rw [tokens?, dif_neg last, if_neg (h c.step.1 (List.mem_singleton.2 rfl))]

theorem head?_tokens? {c : Cursor} {ts : List Token} (h : c.tokens? = .ok ts) :
    ts.head? = some c.step.1 := by
  rw [tokens?] at h
  split at h
  · split at h
    · cases h
      rfl
    · cases h
  · split at h
    · cases h
    · cases h
      rfl

theorem tokens?_eq_error (c : Cursor) (t : Token) (ht : t ∈ c.tokens) (hi : t.kind = .invalid) :
    ∃ mode, c.tokens? = .error ⟨mode, t.text, t.position⟩ := by
  induction c using tokens.induct with
  | case1 c more ih =>
    rw [tokens_of_not_isFinal c more] at ht
    have htail : t ∈ c.step.2.tokens := by
      rcases List.mem_cons.1 ht with he | hm
      · rw [← he, hi] at more
        cases more
      · exact hm
    obtain ⟨mode, hm⟩ := ih htail
    refine ⟨mode, ?_⟩
    rw [tokens?_of_not_isFinal c more, hm]
    rfl
  | case2 c last =>
    have hf : c.step.1.kind.isFinal = true := by simpa using last
    rw [tokens_of_isFinal c hf, List.mem_singleton] at ht
    subst ht
    exact ⟨c.mode, by rw [tokens?, dif_neg last, if_pos hi]⟩

end Cursor

/-! ### Walks -/

namespace Lexer

/-- The two ways to go on in a body. -/
inductive Call where
  /-- The way that fails on invalid text. -/
  | token
  /-- The way that loses nothing. -/
  | item
deriving DecidableEq, Repr

inductive Reply where
  | token (t : Token)
  | error (e : LexError)
  | finished
deriving DecidableEq, Repr

def call (l : Lexer) : Call → Reply × Lexer
  | .token =>
    match l.nextToken? with
    | (.ok t, l) => (.token t, l)
    | (.error e, l) => (.error e, l)
  | .item =>
    match l.next? with
    | (some t, l) => (.token t, l)
    | (none, l) => (.finished, l)

def replies (l : Lexer) : List Call → List Reply
  | [] => []
  | c :: calls => (l.call c).1 :: replies (l.call c).2 calls

def walk (l : Lexer) (calls : List Call) : Lexer := calls.foldl (fun l c => (l.call c).2) l

namespace Reply

def isError : Reply → Bool
  | error _ => true
  | _ => false

/-- Whether a reply tells that the walk has come to its end or to an error. -/
def isLast : Reply → Bool
  | token t => t.kind.isFinal
  | error _ => true
  | finished => false

/-- The text a reply hands out. An error stands for the text that is left, unless it has been
told before. -/
def text (told : Bool) : Reply → List Char
  | token t => t.text
  | error e => if told then [] else e.remaining
  | finished => []

def texts (told : Bool) : List Reply → List Char
  | [] => []
  | r :: replies => r.text told ++ texts (told || r.isError) replies

end Reply

/-- What holds all along a walk: an error or the end of the iteration has used up the text. -/
structure Sound (l : Lexer) : Prop where
  owesLevels : l.cursor.OwesLevels
  rest_of_error : l.error.isSome = true → l.cursor.rest = []
  rest_of_exhausted : l.exhausted = true → l.cursor.rest = []

theorem sound_ofBody (body : List Char) : (ofBody body).Sound :=
  ⟨Cursor.owesLevels_ofBody body, by simp [ofBody], by simp [ofBody]⟩

theorem step_rest_eq_nil (c : Cursor) (h : c.rest = []) : c.step.2.rest = [] := by
  have hs := Cursor.step_text_append_rest c
  rw [h] at hs
  exact (List.append_eq_nil_iff.1 hs).2

def failure (l : Lexer) : LexError := ⟨l.mode, l.cursor.step.1.text, l.cursor.step.1.position⟩

/-- All that a call can do: tell the error that there is, run into an error, hand out the next
token in one of the two ways, or tell that there is nothing left. -/
inductive Called (l : Lexer) : Reply → Lexer → Prop
  | told {e : LexError} (error : l.error = some e) : Called l (.error e) l
  | failed (error : l.error = none) (invalid : l.cursor.step.1.kind = .invalid) :
    Called l (.error l.failure) { l with cursor := l.cursor.step.2, error := some l.failure }
  | token (error : l.error = none) (valid : l.cursor.step.1.kind ≠ .invalid) :
    Called l (.token l.cursor.step.1) { l with cursor := l.cursor.step.2 }
  | item (more : l.exhausted = false) :
    Called l (.token l.cursor.step.1)
      { l with cursor := l.cursor.step.2, exhausted := l.cursor.step.1.kind.isFinal }
  | finished (exhausted : l.exhausted = true) : Called l .finished l

theorem called (l : Lexer) (c : Call) : l.Called (l.call c).1 (l.call c).2 := by
  cases c with
  | token =>
    cases he : l.error with
    | some e =>
      simp only [call, Lexer.nextToken?, he]
      exact .told he
    | none =>
      by_cases hi : l.cursor.step.1.kind = .invalid
      · simp only [call, Lexer.nextToken?, he, if_pos hi]
        exact .failed he hi
      · have hcalled := Called.token he hi
        simpa only [call, Lexer.nextToken?, he, if_neg hi] using hcalled
  | item =>
    cases he : l.exhausted with
    | true =>
      simp only [call, Lexer.next?, he, if_true]
      exact .finished he
    | false =>
      simp only [call, Lexer.next?, he, Bool.false_eq_true, if_false]
      exact .item he

section

variable {l l' : Lexer} {r : Reply}

theorem Called.sound (h : l.Called r l') (hs : l.Sound) : l'.Sound := by
  have hstep := step_rest_eq_nil l.cursor
  have hfinal := (Cursor.steps_step l.cursor).rest_of_isFinal hs.owesLevels
  cases h with
  | told | finished => exact hs
  | failed _ invalid =>
    have hr := hfinal (by simp [TokenKind.isFinal, invalid])
    exact ⟨hs.owesLevels.step, fun _ => hr, fun _ => hr⟩
  | token =>
    exact ⟨hs.owesLevels.step, fun he => hstep (hs.rest_of_error he),
      fun he => hstep (hs.rest_of_exhausted he)⟩
  | item => exact ⟨hs.owesLevels.step, fun he => hstep (hs.rest_of_error he), hfinal⟩

theorem Called.text_append_rest (h : l.Called r l') :
    r.text l.error.isSome ++ l'.cursor.rest = l.cursor.rest := by
  have hstep := Cursor.step_text_append_rest l.cursor
  cases h with
  | told error => simp [Reply.text, error]
  | failed error => simpa [Reply.text, error, failure] using hstep
  | token | item => exact hstep
  | finished => rfl

theorem Called.isSome_error (h : l.Called r l') :
    l'.error.isSome = (l.error.isSome || r.isError) := by
  cases h with
  | told error | failed error | token error => simp [error, Reply.isError]
  | item | finished => simp [Reply.isError]

theorem Called.rest_of_isLast (h : l.Called r l') (hs : l.Sound) (hl : r.isLast = true) :
    l'.cursor.rest = [] := by
  have hfinal := (Cursor.steps_step l.cursor).rest_of_isFinal hs.owesLevels
  cases h with
  | told error => exact hs.rest_of_error (by simp [error])
  | failed _ invalid => exact hfinal (by simp [TokenKind.isFinal, invalid])
  | token | item => exact hfinal hl
  | finished => cases hl

end

theorem walk_rest_eq_nil (l : Lexer) (calls : List Call) (h : l.Sound) (hr : l.cursor.rest = []) :
    (l.walk calls).cursor.rest = [] := by
  induction calls generalizing l with
  | nil => exact hr
  | cons c calls ih =>
    have ht := (l.called c).text_append_rest
    rw [hr] at ht
    exact ih (l.call c).2 ((l.called c).sound h) (List.append_eq_nil_iff.1 ht).2

/-- What a walk has handed out and what it has left make up what it had left before. -/
theorem texts_replies_append_rest (l : Lexer) (calls : List Call) (h : l.Sound) :
    Reply.texts l.error.isSome (l.replies calls) ++ (l.walk calls).cursor.rest =
      l.cursor.rest := by
  induction calls generalizing l with
  | nil => rfl
  | cons c calls ih =>
    have hc := (l.called c).text_append_rest
    have ht := ih (l.call c).2 ((l.called c).sound h)
    rw [(l.called c).isSome_error] at ht
    rw [← hc, ← ht]
    simp [replies, walk, Reply.texts]

theorem walk_rest_of_isLast (l : Lexer) (calls : List Call) (h : l.Sound)
    (hl : ∃ r ∈ l.replies calls, r.isLast = true) : (l.walk calls).cursor.rest = [] := by
  induction calls generalizing l with
  | nil => simp [replies] at hl
  | cons c calls ih =>
    obtain ⟨r, hr, hf⟩ := hl
    rcases List.mem_cons.1 hr with he | hm
    · rw [he] at hf
      exact walk_rest_eq_nil (l.call c).2 calls ((l.called c).sound h)
        ((l.called c).rest_of_isLast h hf)
    · exact ih (l.call c).2 ((l.called c).sound h) ⟨r, hm, hf⟩

theorem replies_of_exhausted (l : Lexer) (n : Nat) (h : l.exhausted = true) :
    l.replies (.replicate n .item) = .replicate n .finished := by
  induction n with
  | zero => rfl
  | succ n ih =>
    have hs : l.call .item = (.finished, l) := by simp [call, Lexer.next?, h]
    rw [List.replicate_succ, replies, hs, ih, List.replicate_succ]

/-- The walk that loses nothing hands out all tokens, and nothing behind the last one. -/
theorem replies_item (l : Lexer) (extra : Nat) (h : l.exhausted = false) :
    l.replies (.replicate (l.cursor.tokens.length + extra) .item) =
      l.cursor.tokens.map .token ++ .replicate extra .finished := by
  generalize hc : l.cursor = c
  induction c using Cursor.tokens.induct generalizing l with
  | case1 c more ih =>
    subst hc
    rw [Cursor.tokens_of_not_isFinal l.cursor more, List.length_cons, Nat.add_right_comm,
      List.replicate_succ, replies]
    have hn : (l.call .item) =
        (.token l.cursor.step.1, { l with cursor := l.cursor.step.2, exhausted := false }) := by
      simp [call, Lexer.next?, h, more]
    rw [hn, ih _ rfl rfl]
    rfl
  | case2 c last =>
    subst hc
    have hf : l.cursor.step.1.kind.isFinal = true := by simpa using last
    have hn : (l.call .item) =
        (.token l.cursor.step.1, { l with cursor := l.cursor.step.2, exhausted := true }) := by
      simp [call, Lexer.next?, h, hf]
    rw [Cursor.tokens_of_isFinal l.cursor hf, List.length_singleton, Nat.add_comm,
      List.replicate_succ, replies, hn, replies_of_exhausted _ extra rfl]
    rfl

end Lexer

/-- Lexing loses nothing. The walk that never fails hands out finitely many tokens, of which
exactly the last is the end of the body or invalid, and their texts spell the body. Without
invalid text these are the tokens of the body, and otherwise its error has the text and the
place of the last of them. However the two ways to go on are mixed, what has been handed out
begins the body, and is the whole body once the end or an error has been told. -/
theorem lexing_loses_nothing (body : List Char) :
    (∀ extra, (Lexer.ofBody body).replies
        (.replicate ((Body.tokens body).length + extra) .item) =
      (Body.tokens body).map .token ++ .replicate extra .finished) ∧
    (∃ before last, Body.tokens body = before ++ [last] ∧ last.kind.isFinal = true ∧
      (∀ t ∈ before, t.kind.isFinal = false) ∧
      if last.kind = .invalid then
        ∃ mode, Body.tokenize body = .error ⟨mode, last.text, last.position⟩
      else Body.tokenize body = .ok (Body.tokens body)) ∧
    (Body.tokens body).flatMap Token.text = body ∧
    ∀ calls : List Lexer.Call,
      Lexer.Reply.texts false ((Lexer.ofBody body).replies calls) <+: body ∧
      ((∃ r ∈ (Lexer.ofBody body).replies calls, r.isLast = true) →
        Lexer.Reply.texts false ((Lexer.ofBody body).replies calls) = body) := by
  have hs := Lexer.sound_ofBody body
  refine ⟨fun extra => Lexer.replies_item (.ofBody body) extra rfl, ?_, ?_, fun calls => ?_⟩
  · obtain ⟨before, last, ht, hl, hb⟩ := Cursor.tokens_eq_append_last (.ofBody body)
    refine ⟨before, last, ht, hl, hb, ?_⟩
    split
    · rename_i hi
      exact Cursor.tokens?_eq_error (.ofBody body) last (by simp [ht]) hi
    · rename_i hi
      refine Cursor.tokens?_eq_ok (.ofBody body) fun t hm he => ?_
      rw [ht, List.mem_append, List.mem_singleton] at hm
      rcases hm with hm | hm
      · have hf := hb t hm
        simp [he, TokenKind.isFinal] at hf
      · exact hi (hm ▸ he)
  · exact Cursor.flatMap_text_tokens (.ofBody body) hs.owesLevels
  · have hw := Lexer.texts_replies_append_rest (.ofBody body) calls hs
    refine ⟨⟨_, hw⟩, fun hl => ?_⟩
    rw [Lexer.walk_rest_of_isLast (.ofBody body) calls hs hl, List.append_nil] at hw
    exact hw

end Dialogue
