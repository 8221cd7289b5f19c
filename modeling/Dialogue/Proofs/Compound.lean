import Dialogue.Proofs.Conditions
import Dialogue.Proofs.Enclosure
import Dialogue.Proofs.Positions

/-!
# Compound assignments

An assignment such as `$gold += E` reads its variable behind the new value, while
`$gold = $gold + (E)` reads it in front. What happens in between cannot tell: an
evaluation writes no variable, and it does not depend on the reads that have been noted
before (`tracks_agrees`). So both give the variable the same value or fail with the
same error, and call the host alike (`execute_compound`). The parentheses make the
source of the new value one operand, whatever operators it holds.
-/

namespace Dialogue

def Access.call? : Access → Option (String × List Value)
  | .call name args => some (name, args)
  | _ => none

namespace Session

def calls (s : Session) : List (String × List Value) := s.journal.filterMap Access.call?

/-- Two sessions that differ at most in the reads and writes they have noted. -/
structure Agrees (s t : Session) : Prop where
  store : s.store = t.store
  visited : s.visited = t.visited
  functions : s.functions = t.functions
  calls : s.calls = t.calls

variable {s t u : Session}

theorem Agrees.refl (s : Session) : s.Agrees s := ⟨rfl, rfl, rfl, rfl⟩

theorem Agrees.symm (h : s.Agrees t) : t.Agrees s :=
  ⟨h.store.symm, h.visited.symm, h.functions.symm, h.calls.symm⟩

theorem Agrees.trans (h : s.Agrees t) (h' : t.Agrees u) : s.Agrees u :=
  ⟨h.store.trans h'.store, h.visited.trans h'.visited, h.functions.trans h'.functions,
    h.calls.trans h'.calls⟩

theorem calls_note (s : Session) (access : Access) :
    (s.note access).calls = s.calls ++ access.call?.toList := by
  unfold calls note
  rw [List.filterMap_append]
  cases h : access.call? <;> simp [h]

theorem Agrees.note (h : s.Agrees t) (access : Access) : (s.note access).Agrees (t.note access) :=
  ⟨h.store, h.visited, h.functions, by rw [calls_note, calls_note, h.calls]⟩

theorem read_agrees (s : Session) (name : String) : s.Agrees (s.read name).2 :=
  ⟨rfl, rfl, rfl, by simp [read, calls_note, Access.call?]⟩

theorem Agrees.read (h : s.Agrees t) (name : String) :
    SameResult Agrees (s.read name) (t.read name) where
  result := congrArg (Table.get? · name) h.store
  session := (s.read_agrees name).symm.trans (h.trans (t.read_agrees name))

theorem Agrees.write (h : s.Agrees t) (name : String) (value : Value) :
    (s.write name value).Agrees (t.write name value) := by
  have hstored : ({ s with store := s.store.insert name value } : Session).Agrees
      { t with store := t.store.insert name value } :=
    ⟨by rw [h.store], h.visited, h.functions, h.calls⟩
  exact hstored.note _

theorem Agrees.call (h : s.Agrees t) (name : String) (args : List Value) (line : Nat) :
    SameResult Agrees (s.call name args line) (t.call name args line) := by
  unfold Session.call
  rw [h.functions]
  cases t.functions.table.get? name with
  | none => exact ⟨rfl, h⟩
  | some function =>
    cases function with
    | visited =>
      match args with
      | [] => exact ⟨rfl, h⟩
      | [title] => exact ⟨by simp only [hasVisited, h.visited], h⟩
      | _ :: _ :: _ => exact ⟨rfl, h⟩
    | host function earlier =>
      have hcalled (functions : Functions) : ({ s with functions := functions } : Session).Agrees
          { t with functions := functions } := ⟨h.store, h.visited, rfl, h.calls⟩
      exact ⟨rfl, (hcalled _).note _⟩

/-- What has been noted before is nothing that a read or a call depends on. -/
theorem tracks_agrees : Tracks Agrees fun _ => True where
  read h name := h.read name
  call h name _ args line := h.call name args line

end Session

open Session (Agrees SameResult andThen)

theorem Session.assign_eq (s : Session) (line : Nat) (target : String) (op : AssignOp)
    (value : Expr) :
    s.assign line target op value = andThen (value.evaluate s) fun new s =>
      andThen (op.combine target (s.store.get? target) new line, (s.read target).2) fun v s =>
        (.ok (), s.write target v) := by
  rw [assign]
  obtain ⟨new | new, s'⟩ := value.evaluate s
  · rfl
  · simp only [andThen, read]
    cases op.combine target (s'.store.get? target) new line <;> rfl

theorem AssignOp.combine_of_binaryOp? {op : AssignOp} {b : BinaryOp} (h : op.binaryOp? = some b)
    (target : String) (old new : Value) (line : Nat) :
    op.combine target (some old) new line = b.apply old new line := by
  cases op <;> cases h <;> rfl

/-- Both operands of arithmetic are evaluated. -/
theorem BinaryOp.decided?_of_binaryOp? {op : AssignOp} {b : BinaryOp} (h : op.binaryOp? = some b)
    (left : Value) : b.decided? left = none := by
  cases op <;> cases h <;> rfl

theorem Session.assign_compound {s : Session} {x : String} (hset : s.store.get? x ≠ none)
    {op : AssignOp} {b : BinaryOp} (hop : op.binaryOp? = some b) (line : Nat) (value : Expr) :
    SameResult Agrees (s.assign line x op value)
      (s.assign line x .set (.binary line b (.var line x) value)) := by
  obtain ⟨old, hold⟩ := Option.ne_none_iff_exists'.1 hset
  have hvar : (Expr.var line x).evaluate s = (.ok old, (s.read x).2) := by
    simp only [Expr.evaluate, read, hold]
  have hexpanded : (Expr.binary line b (.var line x) value).evaluate s =
      andThen (value.evaluate (s.read x).2) fun new s => (b.apply old new line, s) := by
    rw [Expr.evaluate_binary, hvar]
    simp only [andThen, BinaryOp.decided?_of_binaryOp? hop]
  have hvalue := value.evaluate_tracks tracks_agrees (fun _ _ => trivial) (s.read_agrees x)
  have hstore := (Expr.evaluate_alike value s).store
  rw [assign_eq, assign_eq, hexpanded]
  obtain ⟨new, s', hs⟩ : ∃ new s', value.evaluate s = (new, s') := ⟨_, _, rfl⟩
  obtain ⟨new', t', ht⟩ : ∃ new t', value.evaluate (s.read x).2 = (new, t') := ⟨_, _, rfl⟩
  rw [hs, ht] at hvalue ⊢
  rw [hs] at hstore
  have hkept : s'.store.get? x = some old := hstore ▸ hold
  obtain ⟨rfl, hagrees⟩ := hvalue
  cases new with
  | error e => exact ⟨rfl, hagrees⟩
  | ok new =>
    simp only [andThen, hkept, AssignOp.combine_of_binaryOp? hop]
    -- The old value is read behind the new one on the left, and in front of it on the right.
    cases b.apply old new line with
    | error e => exact ⟨rfl, (s'.read_agrees x).symm.trans hagrees⟩
    | ok v => exact ⟨rfl, (hagrees.read x).session.write x v⟩

theorem Position.advance_breaks (breaks line : Nat) :
    Position.advance ⟨line, 1⟩ (List.replicate breaks '\n') = ⟨line + breaks, 1⟩ := by
  induction breaks generalizing line with
  | zero => rfl
  | succ n ih =>
    rw [List.replicate_succ, advance_cons, next, if_pos rfl, ih, Nat.add_assoc, Nat.add_comm 1]

namespace Cursor

theorem blankLength_breaks (breaks : Nat) (rest : List Char) :
    blankLength (List.replicate breaks '\n' ++ '<' :: rest) = breaks := by
  induction breaks with
  | zero => rfl
  | succ n ih => rw [List.replicate_succ, List.cons_append, blankLength, ih]

theorem opened_breaks (breaks : Nat) (rest : List Char) :
    (opened (List.replicate breaks '\n' ++ '<' :: rest)).position = ⟨1 + breaks, 1⟩ ∧
      Inside (opened (List.replicate breaks '\n' ++ '<' :: rest)) .base true [] ('<' :: rest) := by
  have hposition : ((ofBody (List.replicate breaks '\n' ++ '<' :: rest)).skip breaks).position =
      ⟨1 + breaks, 1⟩ := by
    have htake : (List.replicate breaks '\n' ++ '<' :: rest).take breaks =
        List.replicate breaks '\n' := List.take_left' List.length_replicate
    simp only [skip, ofBody, htake]
    exact Position.advance_breaks breaks 1
  unfold opened
  rw [blankLength_breaks]
  refine ⟨hposition, rfl, rfl, rfl, ?_, rfl, ?_, rfl⟩
  · exact List.drop_left' List.length_replicate
  · exact congrArg (fun p : Position => p.column - 1) hposition

theorem Inside.tokens? {c : Cursor} {mode : Mode} {lineStart : Bool}
    (h : Inside c mode lineStart [] []) : c.tokens? = .ok [c.start.marker .endOfInput] := by
  have hlevels : c.start.levels = [] := h.levels
  rw [← Statement.tokens?_start h.lead h.owed, tokens?_of_rest_nil (c := c.start) rfl h.rest h.owed,
    hlevels]
  rfl

end Cursor

def commandBody (breaks : Nat) (text : String) : List Char :=
  List.replicate breaks '\n' ++ ("<<" ++ text ++ ">>").toList

/-- A command that says one statement is read as this statement. -/
theorem ofBody_commandBody {breaks : Nat} {text : String} {s : Statement} (hs : Sealed text.toList)
    (h : ∀ t : Token, t.text = text.toList → t.position.line = breaks + 1 →
      readDirective (breaks + 1) t = .ok (.statement s)) :
    Statement.ofBody (commandBody breaks text) = .ok [s] := by
  have hbody : commandBody breaks text =
      List.replicate breaks '\n' ++ '<' :: ('<' :: (text.toList ++ ['>', '>'])) := by
    simp [commandBody]
  rw [hbody]
  obtain ⟨hposition, hinside⟩ :=
    Cursor.opened_breaks breaks ('<' :: (text.toList ++ ['>', '>']))
  obtain ⟨first, second, third, d, hwalks, hf, hk, ht, hc, hend⟩ := hinside.command hs
  have htokens := hwalks.tokens?
  rw [hend.tokens?] at htokens
  obtain ⟨hfirst, hnewline, hsecond, -⟩ := Cursor.placed_tokens? _ _ htokens
  have hline : first.position.line = breaks + 1 := by
    rw [hfirst, hposition, Nat.add_comm]
  have hsame : second.position.line = breaks + 1 := by
    rw [hsecond, Position.advance_line_of_not_mem _ (hnewline (by rw [hf]; decide)), ← hfirst,
      hline]
  refine Statement.ofBody_of_tokens htokens fun e => ?_
  have hitem := readItem_command e [d.start.marker .endOfInput] hf hk hc
    (hline ▸ h second ht hsame)
  have hread := Assembly.read_item (a := {}) hitem rfl
  have hlast : ({ block := [s] } : Assembly).read e [d.start.marker .endOfInput] = .ok [s] := by
    have hkind : (d.start.marker .endOfInput).kind = .endOfInput := rfl
    rw [Assembly.read, if_pos hkind]
    rfl
  exact hread.trans hlast

/-! ### Sources -/

/-- An assignment that changes a variable by the value of a source. -/
def compoundText (x : String) (op : AssignOp) (source : String) : String :=
  "set $" ++ x ++ " " ++ op.symbol ++ " " ++ source

def expandedText (x : String) (b : BinaryOp) (source : String) : String :=
  "set $" ++ x ++ " = $" ++ x ++ " " ++ b.symbol ++ " (" ++ source ++ ")"

section

variable {x : String} {op : AssignOp} {b : BinaryOp} {source : String} {ts : List Expr.Token}
  {e : Expr}

theorem toList_compoundText : (compoundText x op source).toList =
    "set".toList ++ (assignmentLead x op ++ source.toList) := by
  simp only [compoundText, assignmentLead, String.toList_append, List.append_assoc,
    List.cons_append, List.nil_append]
  rfl

def operandText (x : String) (b : BinaryOp) (source : String) : List Char :=
  '$' :: x.toList ++ (' ' :: b.symbol.toList ++ [' '] ++ (['('] ++ (source.toList ++ [')'])))

theorem toList_expandedText : (expandedText x b source).toList =
    "set".toList ++ (assignmentLead x .set ++ operandText x b source) := by
  simp only [expandedText, assignmentLead, operandText, String.toList_append, List.append_assoc,
    List.cons_append, List.nil_append]
  rfl

theorem spells_operandText (hx : Expr.isIdentifier x.toList = true)
    (h : Expr.Spelled source.toList ts e) :
    Expr.Spells (operandText x b source) (.var x :: .symbol b.token :: .symbol .openParen ::
      (ts ++ [.symbol .closeParen])) [] := by
  have hclose := (h.spells (Expr.closes_cons [])).append
    (Expr.spells_punctuation .closeParen [] (Or.inr (Or.inl rfl)))
  have hopen := (Expr.spells_punctuation .openParen _ (Or.inl rfl)).append hclose
  have hop := (Expr.spells_binaryOp b _).append hopen
  have hall := (Expr.spells_var x.toList _ hx
    (Expr.ends_cons ' ' _ (by decide) (by decide))).append hop
  rw [String.ofList_toList] at hall
  exact hall

theorem derives_operand (h : Expr.Spelled source.toList ts e) (line : Nat) :
    Expr.Derives line 1 (.var x :: .symbol b.token :: .symbol .openParen ::
      (ts ++ [.symbol .closeParen])) (.binary line b (.var line x) (e.atLine line)) := by
  have hlevel : 1 ≤ b.precedence ∧ b.precedence + 1 ≤ 8 := by cases b <;> decide
  have hleft : Expr.Derives line b.precedence [.var x] (.var line x) :=
    (Expr.Derives.var x).loosened _ (by omega)
  have hright := (Expr.Derives.group (h.derives line)).loosened (b.precedence + 1) hlevel.2
  exact (Expr.Derives.binary ((b.mem_atLevel _).2 rfl) hleft hright).loosened 1 hlevel.1

theorem Tidy.append_sealed {a c : List Char} (ha : Tidy a) (hc : Sealed c) : Sealed (a ++ c) where
  ne_nil := fun h => ha.ne_nil (List.append_eq_nil_iff.1 h).1
  newline := fun h => (List.mem_append.1 h).elim ha.newline hc.newline
  double := hasDouble_append '>' a c ha.double hc.double (Or.inl ha.last)
  last := by
    rw [List.getLast?_append_of_ne_nil _ hc.ne_nil]
    exact hc.last

theorem tidy_assignmentLead (hx : Expr.isIdentifier x.toList = true) :
    Tidy ("set".toList ++ assignmentLead x op) := by
  have hop : Tidy (' ' :: op.symbol.toList ++ [' ']) := by
    cases op <;> exact tidy_of_not_mem _ (by decide) (by decide) (by decide)
  have hset : Tidy "set $".toList := tidy_of_not_mem _ (by decide) (by decide) (by decide)
  have hall := hset.append ((Expr.tidy_identifier _ hx).append hop)
  simpa [assignmentLead] using hall

theorem tidy_operandLead (hx : Expr.isIdentifier x.toList = true) :
    Tidy (['$'] ++ (x.toList ++ (' ' :: b.symbol.toList ++ [' '] ++ ['(']))) := by
  have hdollar : Tidy ['$'] := tidy_of_not_mem _ (by decide) (by decide) (by decide)
  have hopen : Tidy ['('] := tidy_of_not_mem _ (by decide) (by decide) (by decide)
  exact hdollar.append ((Expr.tidy_identifier _ hx).append ((Expr.tidy_binaryOp b).append hopen))

theorem sealed_compoundText (hx : Expr.isIdentifier x.toList = true) (hs : Sealed source.toList) :
    Sealed (compoundText x op source).toList := by
  rw [toList_compoundText, ← List.append_assoc]
  exact (tidy_assignmentLead hx).append_sealed hs

theorem sealed_expandedText (hx : Expr.isIdentifier x.toList = true) (hs : Sealed source.toList) :
    Sealed (expandedText x b source).toList := by
  have hclose : Tidy [')'] := tidy_of_not_mem _ (by decide) (by decide) (by decide)
  have hall := (@tidy_assignmentLead x .set hx).append_sealed
    ((tidy_operandLead (b := b) hx).append_sealed (hs.append hclose))
  rw [toList_expandedText]
  simpa [operandText] using hall

theorem readDirective_of_derives {t : Token} {line : Nat} {value : List Char}
    (hx : Expr.isIdentifier x.toList = true) (hline : t.position.line = line)
    (ht : t.text = "set".toList ++ (assignmentLead x op ++ value))
    (hs : Expr.Spells value ts []) (hd : Expr.Derives line 1 ts e) :
    readDirective line t = .ok (.statement (.assignment line x op e)) := by
  subst hline
  have hspells := (spells_assignmentLead x op (value ++ []) hx).append hs
  have hread := Expr.parseAssignmentAt_of_derives x op (t.positionAt 3) _ hspells hd
  rw [readDirective_setWord _ t _ ht]
  exact congrArg (Except.map _) hread

theorem ofBody_compoundText (hx : Expr.isIdentifier x.toList = true) (hs : Sealed source.toList)
    (h : Expr.Spelled source.toList ts e) (breaks : Nat) :
    Statement.ofBody (commandBody breaks (compoundText x op source)) =
      .ok [.assignment (breaks + 1) x op (e.atLine (breaks + 1))] := by
  refine ofBody_commandBody (sealed_compoundText hx hs) fun t ht hline => ?_
  rw [toList_compoundText] at ht
  exact readDirective_of_derives hx hline ht (h.spells Expr.closes_nil) (h.derives _)

theorem ofBody_expandedText (hx : Expr.isIdentifier x.toList = true) (hs : Sealed source.toList)
    (h : Expr.Spelled source.toList ts e) (breaks : Nat) :
    Statement.ofBody (commandBody breaks (expandedText x b source)) =
      .ok [.assignment (breaks + 1) x .set (.binary (breaks + 1) b (.var (breaks + 1) x)
        (e.atLine (breaks + 1)))] := by
  refine ofBody_commandBody (sealed_expandedText hx hs) fun t ht hline => ?_
  rw [toList_expandedText] at ht
  exact readDirective_of_derives hx hline ht (spells_operandText hx h) (derives_operand h _)

end

/-! ### What is done -/

/-- Both statements go on silently or fail with the same error, and leave the same behind, up to
the reads and writes in the journal. -/
structure SameOutcome (o o' : Outcome) : Prop where
  progress : o.1 = o'.1
  settled : o.1 = .silent ∨ ∃ e, o.1 = .failed e
  session : o.2.1.session.Agrees o'.2.1.session
  library : o.2.1.library = o'.2.1.library
  offers : o.2.1.offers = o'.2.1.offers
  run : o.2.2 = o'.2.2

theorem Run.execute_assignment (g : Stage) (r : Run) (line : Nat) (target : String) (op : AssignOp)
    (value : Expr) :
    execute g r (.assignment line target op value) =
      (match (g.session.assign line target op value).1 with
        | .ok () => .silent
        | .error e => .failed e,
        { g with session := (g.session.assign line target op value).2 }, r) := by
  rw [execute]
  obtain ⟨e | u, s⟩ := g.session.assign line target op value <;> rfl

theorem Run.sameOutcome_of_assign {g : Stage} {line : Nat} {target target' : String}
    {op op' : AssignOp} {value value' : Expr}
    (h : SameResult Agrees (g.session.assign line target op value)
      (g.session.assign line target' op' value')) (r : Run) :
    SameOutcome (execute g r (.assignment line target op value))
      (execute g r (.assignment line target' op' value')) := by
  rw [execute_assignment, execute_assignment, ← h.result]
  refine ⟨rfl, ?_, h.session, rfl, rfl, rfl⟩
  cases (g.session.assign line target op value).1 with
  | ok u => exact Or.inl rfl
  | error e => exact Or.inr ⟨e, rfl⟩

/-- Behind any number of line breaks, `$x op= E` and `$x = $x op (E)` are read as one statement
each, on the same line. On every stage on which the variable is set they come to the same: both go
on or both fail with one error, with the same variables, the same nodes entered and the same calls
to the host in the same order. -/
theorem execute_compound {x : String} {op : AssignOp} {b : BinaryOp} {source : String}
    {number : Nat} {e : Expr} (hx : Expr.isIdentifier x.toList = true)
    (hop : op.binaryOp? = some b) (hline : '\n' ∉ source.toList)
    (hdouble : Text.hasDouble '>' source.toList = false)
    (hparse : Expr.parse source number = .ok e) (breaks : Nat) :
    ∃ compound expanded,
      Statement.ofBody (commandBody breaks (compoundText x op source)) = .ok [compound] ∧
      Statement.ofBody (commandBody breaks (expandedText x b source)) = .ok [expanded] ∧
      compound.line = breaks + 1 ∧ expanded.line = breaks + 1 ∧
      ∀ (g : Stage) (r : Run), g.session.store.get? x ≠ none →
        SameOutcome (Run.execute g r compound) (Run.execute g r expanded) := by
  obtain ⟨ts, hspelled⟩ := Expr.spelled_of_parseAt hparse
  have hsealed : Sealed source.toList := ⟨hspelled.ne_nil, hline, hdouble, hspelled.last⟩
  refine ⟨_, _, ofBody_compoundText hx hsealed hspelled breaks,
    ofBody_expandedText hx hsealed hspelled breaks, rfl, rfl, fun g r hset => ?_⟩
  exact Run.sameOutcome_of_assign (Session.assign_compound hset hop _ _) r

def market : Stage :=
  { session := { store := .ofList [("wares", .string "Open: "), ("late", .bool false)] } }

/-- The operand binds more loosely than the sum, and its right half is not left out. -/
theorem execute_compound_market :
    Expr.parse "$late or visited(\"Hall\")" 1 = .ok (.binary 1 .or (.var 1 "late")
      (.call 1 "visited" [.literal 1 (.string "Hall")])) ∧
    market.session.store.get? "wares" ≠ none ∧
    ∃ compound expanded,
      Statement.ofBody (commandBody 2 (compoundText "wares" .add "$late or visited(\"Hall\")")) =
        .ok [compound] ∧
      Statement.ofBody (commandBody 2 (expandedText "wares" .add "$late or visited(\"Hall\")")) =
        .ok [expanded] ∧
      SameOutcome (Run.execute market (.from "Hall") compound)
        (Run.execute market (.from "Hall") expanded) := by
  have hparse : Expr.parse "$late or visited(\"Hall\")" 1 = .ok (.binary 1 .or (.var 1 "late")
      (.call 1 "visited" [.literal 1 (.string "Hall")])) := by cbv
  have hset : market.session.store.get? "wares" ≠ none := by decide
  obtain ⟨compound, expanded, hcompound, hexpanded, -, -, hsame⟩ :=
    @execute_compound "wares" .add .add _ _ _ (by decide) rfl (by decide) (by decide) hparse 2
  exact ⟨hparse, hset, compound, expanded, hcompound, hexpanded, hsame market _ hset⟩

end Dialogue
