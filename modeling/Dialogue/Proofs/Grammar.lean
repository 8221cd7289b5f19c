import Dialogue.Proofs.OpenConstructs
import Mathlib.Data.Set.Subsingleton

/-!
# The grammar of expressions

The parser accepts exactly the layered grammar: six levels of binary operators that
associate to the left, unary operators above them and primaries on top. That every
derivation is read back goes by the climbing reader, since its minimum may lie below
the level of what it reads; that whatever is read has a derivation goes by the layered
reader, whose loops are the rules of the grammar.
-/

namespace Dialogue

namespace Expr

open Method

mutual

/-- Tokens that form an expression of a level, with its tree. Levels 1 to 6 are those of the
binary operators, level 7 that of the unary ones and level 8 that of the primaries. -/
inductive Derives (line : Nat) : Nat → List Token → Expr → Prop
  | literal (value : Value) : Derives line 8 [.literal value] (.literal line value)
  | var (name : String) : Derives line 8 [.var name] (.var line name)
  | callEmpty (name : String) :
    Derives line 8 [.name name, .symbol .openParen, .symbol .closeParen] (.call line name [])
  | call (name : String) {ts : List Token} {args : List Expr}
      (arguments : DerivesArguments line ts args) :
    Derives line 8 (.name name :: .symbol .openParen :: (ts ++ [.symbol .closeParen]))
      (.call line name args)
  | group {ts : List Token} {e : Expr} (inner : Derives line 1 ts e) :
    Derives line 8 (.symbol .openParen :: (ts ++ [.symbol .closeParen])) e
  | unary (op : UnaryOp) {ts : List Token} {e : Expr} (operand : Derives line 7 ts e) :
    Derives line 7 (.symbol op.token :: ts) (.unary line op e)
  | binary {level : Nat} {op : BinaryOp} {ts us : List Token} {left right : Expr}
      (hop : op ∈ BinaryOp.atLevel level) (first : Derives line level ts left)
      (second : Derives line (level + 1) us right) :
    Derives line level (ts ++ .symbol op.token :: us) (.binary line op left right)
  | tighter {level : Nat} {ts : List Token} {e : Expr} (inner : Derives line (level + 1) ts e) :
    Derives line level ts e

/-- Tokens that form one argument or more, separated by commas. -/
inductive DerivesArguments (line : Nat) : List Token → List Expr → Prop
  | one {ts : List Token} {e : Expr} (last : Derives line 1 ts e) : DerivesArguments line ts [e]
  | more {ts us : List Token} {e : Expr} {es : List Expr} (first : Derives line 1 ts e)
      (others : DerivesArguments line us es) :
    DerivesArguments line (ts ++ .symbol .comma :: us) (e :: es)

end

variable {source : Source}

/-! ### What is derived is read -/

/-- Before anything that cannot go on at the level, the tokens are read as `e` from every level
up to it. -/
def ReadAt (source : Source) (level : Nat) (ts : List Token) (e : Expr) : Prop :=
  ∀ lexemes rest min, lexemes.map Lexeme.token = ts → min ≤ level → Stops (level + 1) rest →
    climbing.read source min (lexemes ++ rest) =
      (climbing.readLoop source min e rest).after lexemes.length

def ReadUnary (source : Source) (ts : List Token) (e : Expr) : Prop :=
  ∀ lexemes rest, lexemes.map Lexeme.token = ts →
    climbing.readUnary source (lexemes ++ rest) = .ok (e, lexemes.length)

def ReadArguments (source : Source) (ts : List Token) (args : List Expr) : Prop :=
  ∀ lexemes close rest, lexemes.map Lexeme.token = ts → close.token = .symbol .closeParen →
    climbing.readArguments source (lexemes ++ close :: rest) = .ok (args, lexemes.length + 1)

theorem ReadUnary.readAt {ts : List Token} {e : Expr} (h : ReadUnary source ts e) (level : Nat) :
    ReadAt source level ts e := by
  intro lexemes rest min hl _ _
  rw [climbing_read, h lexemes rest hl, Reading.andThen, List.drop_left]

theorem ReadAt.read {level : Nat} {ts : List Token} {e : Expr} (h : ReadAt source level ts e)
    {lexemes rest : List Lexeme} (hl : lexemes.map Lexeme.token = ts) (hs : Stops level rest) :
    climbing.read source level (lexemes ++ rest) = .ok (e, lexemes.length) := by
  rw [h lexemes rest level hl (Nat.le_refl level) (hs.mono (Nat.le_succ level)),
    climbing_readLoop_of_stops source hs]
  rfl

theorem readUnary_of_unaryOp {ts : List Token} {e : Expr} (op : UnaryOp)
    (h : ReadAt source 7 ts e) :
    ReadUnary source (.symbol op.token :: ts) (.unary source.line op e) := by
  intro lexemes rest hl
  obtain ⟨first, others, rfl, hfirst, hothers⟩ := List.map_eq_cons_iff.1 hl
  have hr := h.read hothers (stops_seven rest)
  rw [read_of_ge _ _ (Nat.le_refl 7)] at hr
  rw [List.cons_append, Method.readUnary, Lexeme.unaryOp?_eq_some.2 hfirst]
  simp only [hr, List.length_cons, Nat.add_comm]

theorem stops_of_symbol {lexeme : Lexeme} {s : Symbol} (h : lexeme.token = .symbol s)
    (hs : s.binaryOp? = none) (level : Nat) (rest : List Lexeme) :
    Stops level (lexeme :: rest) := by
  intro op hop
  have hnone : lexeme.binaryOp? = none := (Lexeme.binaryOp?_of_symbol h).trans hs
  cases hnone.symm.trans hop

theorem readAt_binary {level : Nat} {op : BinaryOp} {ts us : List Token} {left right : Expr}
    (hop : op ∈ BinaryOp.atLevel level) (hfirst : ReadAt source level ts left)
    (hsecond : ReadAt source (level + 1) us right) :
    ReadAt source level (ts ++ .symbol op.token :: us) (.binary source.line op left right) := by
  obtain rfl := (op.mem_atLevel level).1 hop
  intro lexemes rest min hl hmin hs
  obtain ⟨first, others, rfl, hf, ho⟩ := List.map_eq_append_iff.1 hl
  obtain ⟨symbol, second, rfl, hsymbol, hsec⟩ := List.map_eq_cons_iff.1 ho
  have hsymbol' := Lexeme.binaryOp?_eq_some.2 hsymbol
  have hstop : Stops (op.precedence + 1) (symbol :: (second ++ rest)) := by
    intro op' h
    cases hsymbol'.symm.trans h
    exact Nat.lt_succ_self _
  have hright : climbing.read source (climbing.above min op) (second ++ rest) =
      .ok (right, second.length) := hsecond.read hsec hs
  rw [List.append_assoc, List.cons_append, hfirst first _ min hf hmin hstop,
    readLoop_of_takes _ _ hsymbol' (climbing_takes.2 hmin), hright, Reading.andThen,
    List.drop_left, Reading.after_after, Reading.after_after, List.length_append,
    List.length_cons, Nat.add_assoc, Nat.add_comm 1]

theorem ReadAt.tighter {level : Nat} {ts : List Token} {e : Expr}
    (h : ReadAt source (level + 1) ts e) : ReadAt source level ts e :=
  fun lexemes rest min hl hmin hs =>
    h lexemes rest min hl (Nat.le_succ_of_le hmin) (hs.mono (Nat.le_succ _))

theorem readUnary_of_primary {lexeme : Lexeme} (h : lexeme.unaryOp? = none) (rest : List Lexeme) :
    climbing.readUnary source (lexeme :: rest) = climbing.readPrimary source lexeme rest := by
  rw [Method.readUnary, h]

theorem readUnary_leaf {t : Token} {e : Expr} (h : ∀ lexeme rest, lexeme.token = t →
    climbing.readUnary source (lexeme :: rest) = .ok (e, 1)) : ReadUnary source [t] e := by
  intro lexemes rest hl
  obtain ⟨first, rfl, hfirst⟩ := List.map_eq_singleton_iff.1 hl
  exact h first rest hfirst

theorem readUnary_literal (value : Value) :
    ReadUnary source [.literal value] (.literal source.line value) := by
  refine readUnary_leaf fun lexeme rest ht => ?_
  rw [readUnary_of_primary (by simp only [Lexeme.unaryOp?, ht]), Method.readPrimary, ht]

theorem readUnary_var (name : String) :
    ReadUnary source [.var name] (.var source.line name) := by
  refine readUnary_leaf fun lexeme rest ht => ?_
  rw [readUnary_of_primary (by simp only [Lexeme.unaryOp?, ht]), Method.readPrimary, ht]

theorem readUnary_group {ts : List Token} {e : Expr} (h : ReadAt source 1 ts e) :
    ReadUnary source (.symbol .openParen :: (ts ++ [.symbol .closeParen])) e := by
  intro lexemes rest hl
  obtain ⟨first, others, rfl, hfirst, hothers⟩ := List.map_eq_cons_iff.1 hl
  obtain ⟨inner, last, rfl, hinner, hlast⟩ := List.map_eq_append_iff.1 hothers
  obtain ⟨close, rfl, hclose⟩ := List.map_eq_singleton_iff.1 hlast
  have hr := h.read hinner (stops_of_symbol hclose rfl 1 rest)
  have hbegins : begins .closeParen (close :: rest) = true := by simp [begins, hclose]
  rw [List.cons_append, List.append_assoc, List.singleton_append,
    readUnary_of_primary (Lexeme.unaryOp?_of_symbol hfirst), Method.readPrimary, hfirst]
  simp only [hr, List.drop_left, hbegins, if_true, List.length_cons, List.length_append,
    List.length_nil]
  rw [Nat.zero_add, Nat.add_comm 1]

theorem not_begins_of_readArguments {lexemes : List Lexeme} {r : List Expr × Nat}
    (h : climbing.readArguments source lexemes = .ok r) : begins .closeParen lexemes = false := by
  by_contra hb
  obtain ⟨lexeme, rest, rfl, htoken⟩ := begins_iff.1 (Bool.not_eq_false _ ▸ hb)
  have hread : climbing.read source 1 (lexeme :: rest) =
      .error (source.misfit .expression (lexeme :: rest)) := by
    rw [climbing_read, readUnary_of_primary (Lexeme.unaryOp?_of_symbol htoken),
      readPrimary_of_symbol _ _ htoken (by decide)]
    rfl
  rw [Method.readArguments, hread] at h
  cases h

theorem readUnary_callEmpty (name : String) :
    ReadUnary source [.name name, .symbol .openParen, .symbol .closeParen]
      (.call source.line name []) := by
  intro lexemes rest hl
  obtain ⟨first, others, rfl, hfirst, hothers⟩ := List.map_eq_cons_iff.1 hl
  obtain ⟨opening, others, rfl, hopening, hothers⟩ := List.map_eq_cons_iff.1 hothers
  obtain ⟨close, rfl, hclose⟩ := List.map_eq_singleton_iff.1 hothers
  simp only [List.cons_append, List.nil_append]
  rw [readUnary_of_primary (by simp only [Lexeme.unaryOp?, hfirst]), Method.readPrimary, hfirst]
  simp [Method.readCall, begins, hopening, hclose, Reading.after]

theorem readUnary_call {ts : List Token} {args : List Expr} (name : String)
    (h : ReadArguments source ts args) :
    ReadUnary source (.name name :: .symbol .openParen :: (ts ++ [.symbol .closeParen]))
      (.call source.line name args) := by
  intro lexemes rest hl
  obtain ⟨first, others, rfl, hfirst, hothers⟩ := List.map_eq_cons_iff.1 hl
  obtain ⟨opening, others, rfl, hopening, hothers⟩ := List.map_eq_cons_iff.1 hothers
  obtain ⟨inner, last, rfl, hinner, hlast⟩ := List.map_eq_append_iff.1 hothers
  obtain ⟨close, rfl, hclose⟩ := List.map_eq_singleton_iff.1 hlast
  have hr := h inner close rest hinner hclose
  have hnext := not_begins_of_readArguments hr
  have hopen : begins .openParen (opening :: (inner ++ close :: rest)) = true := by
    simp [begins, hopening]
  simp only [List.cons_append, List.append_assoc, List.nil_append]
  rw [readUnary_of_primary (by simp only [Lexeme.unaryOp?, hfirst]), Method.readPrimary, hfirst]
  simp only [Method.readCall, hopen, if_true, List.drop_succ_cons, List.drop_zero, hnext, hr]
  simp only [Bool.false_eq_true, if_false, Reading.after, List.length_cons, List.length_append,
    List.length_nil]
  congr 2
  omega

theorem readArguments_one {ts : List Token} {e : Expr} (h : ReadAt source 1 ts e) :
    ReadArguments source ts [e] := by
  intro lexemes close rest hl hclose
  have hr := h.read hl (stops_of_symbol hclose rfl 1 rest)
  have hbegins : begins .closeParen (close :: rest) = true := by simp [begins, hclose]
  rw [Method.readArguments, hr]
  simp only [List.drop_left, hbegins, if_true]

theorem readArguments_more {ts us : List Token} {e : Expr} {es : List Expr}
    (h : ReadAt source 1 ts e) (hes : ReadArguments source us es) :
    ReadArguments source (ts ++ .symbol .comma :: us) (e :: es) := by
  intro lexemes close rest hl hclose
  obtain ⟨first, others, rfl, hfirst, hothers⟩ := List.map_eq_append_iff.1 hl
  obtain ⟨comma, more, rfl, hcomma, hmore⟩ := List.map_eq_cons_iff.1 hothers
  have hr := h.read hfirst (stops_of_symbol hcomma rfl 1 (more ++ close :: rest))
  have hrest := hes more close rest hmore hclose
  have hnot : begins .closeParen (comma :: (more ++ close :: rest)) = false := by
    simp [begins, hcomma]
  have hbegins : begins .comma (comma :: (more ++ close :: rest)) = true := by
    simp [begins, hcomma]
  have hbehind : (first ++ comma :: (more ++ close :: rest)).drop (first.length + 1) =
      more ++ close :: rest := by
    rw [← List.drop_drop, List.drop_left, List.drop_one, List.tail_cons]
  rw [List.append_assoc, List.cons_append, Method.readArguments, hr]
  simp only [List.drop_left, hnot, Bool.false_eq_true, if_false, hbegins, dif_pos, hbehind, hrest,
    List.length_append, List.length_cons]
  congr 2
  omega

mutual

theorem Derives.readAt : ∀ {level : Nat} {ts : List Token} {e : Expr},
    Derives source.line level ts e → ReadAt source level ts e
  | _, _, _, .literal value => (readUnary_literal value).readAt 8
  | _, _, _, .var name => (readUnary_var name).readAt 8
  | _, _, _, .callEmpty name => (readUnary_callEmpty name).readAt 8
  | _, _, _, .call name arguments => (readUnary_call name arguments.readArguments).readAt 8
  | _, _, _, .group nested => (readUnary_group nested.readAt).readAt 8
  | _, _, _, .unary op operand => (readUnary_of_unaryOp op operand.readAt).readAt 7
  | _, _, _, .binary hop first second => readAt_binary hop first.readAt second.readAt
  | _, _, _, .tighter nested => nested.readAt.tighter

theorem DerivesArguments.readArguments : ∀ {ts : List Token} {args : List Expr},
    DerivesArguments source.line ts args → ReadArguments source ts args
  | _, _, .one last => readArguments_one last.readAt
  | _, _, .more first others => readArguments_more first.readAt others.readArguments

end

/-! ### What is read is derived -/

def front (n : Nat) (lexemes : List Lexeme) : List Token := (lexemes.take n).map Lexeme.token

theorem front_add (n k : Nat) (lexemes : List Lexeme) :
    front (n + k) lexemes = front n lexemes ++ front k (lexemes.drop n) := by
  rw [front, List.take_add, List.map_append]
  rfl

theorem front_cons (n : Nat) (lexeme : Lexeme) (rest : List Lexeme) :
    front (1 + n) (lexeme :: rest) = lexeme.token :: front n rest := by
  rw [front_add]
  rfl

theorem front_of_begins {s : Symbol} {lexemes : List Lexeme} (h : begins s lexemes = true) :
    front 1 lexemes = [.symbol s] := by
  obtain ⟨lexeme, rest, rfl, htoken⟩ := begins_iff.1 h
  exact congrArg (fun t => [t]) htoken

def DerivedBelow (source : Source) (length : Nat) : Prop :=
  ∀ level lexemes e n, level ≤ 7 → lexemes.length < length →
    layered.read source level lexemes = .ok (e, n) →
    Derives source.line level (front n lexemes) e

/-- The loop of a level repeats the rule for its operators. -/
theorem DerivedBelow.loop {length : Nat} (h : DerivedBelow source length) {level : Nat}
    (hlevel : level < 7) {ts : List Token} {left e : Expr} {lexemes : List Lexeme} {n : Nat}
    (hl : lexemes.length ≤ length) (hleft : Derives source.line level ts left)
    (hr : layered.readLoop source level left lexemes = .ok (e, n)) :
    Derives source.line level (ts ++ front n lexemes) e := by
  induction hn : lexemes.length using Nat.strong_induction_on
    generalizing lexemes left ts n with
  | _ length' ih =>
    rcases readLoop_cases layered source level left lexemes with
      hs | ⟨lexeme, rest, op, rfl, hop, htakes⟩
    · rw [hs] at hr
      cases hr
      rwa [front, List.take_zero, List.map_nil, List.append_nil]
    · rw [List.length_cons] at hl hn
      rw [readLoop_of_takes _ _ hop htakes] at hr
      obtain ⟨k, hk, rfl⟩ := Reading.after_eq_ok hr
      obtain ⟨right, i, j, hright, hj, rfl⟩ := Reading.andThen_eq_ok hk
      have hmem : op ∈ BinaryOp.atLevel level := (op.mem_atLevel level).2 (layered_takes.1 htakes)
      have hsecond : Derives source.line (level + 1) (front i rest) right :=
        h _ rest right i (by omega) (by omega) hright
      have hjoined := Derives.binary hmem hleft hsecond
      have hall := ih _ (by rw [List.length_drop]; omega) (by rw [List.length_drop]; omega)
        hjoined hj rfl
      rw [List.append_assoc, List.cons_append, ← front_add] at hall
      rwa [front_cons, Lexeme.binaryOp?_eq_some.1 hop]

theorem DerivedBelow.arguments {length : Nat} (h : DerivedBelow source length)
    {lexemes : List Lexeme} {args : List Expr} {n : Nat} (hl : lexemes.length < length)
    (hr : layered.readArguments source lexemes = .ok (args, n)) :
    ∃ ts, DerivesArguments source.line ts args ∧
      front n lexemes = ts ++ [.symbol .closeParen] := by
  induction hn : lexemes.length using Nat.strong_induction_on generalizing lexemes args n with
  | _ length' ih =>
    rw [Method.readArguments] at hr
    split at hr
    · cases hr
    · rename_i arg k hread
      have harg := h 1 lexemes arg k (by omega) hl hread
      split at hr
      · rename_i hclose
        cases hr
        exact ⟨_, .one harg, by rw [front_add, front_of_begins hclose]⟩
      · split at hr
        · rename_i hcomma
          split at hr
          · cases hr
          · rename_i others j hmore
            cases hr
            have hshort := length_drop_of_begins hcomma
            obtain ⟨us, hus, hfront⟩ := ih _ (by omega) (by omega) hmore rfl
            refine ⟨_, .more harg hus, ?_⟩
            rw [front_add, front_add, front_of_begins hcomma, hfront]
            simp only [List.append_assoc, List.cons_append, List.nil_append]
        · cases hr

theorem DerivedBelow.call {length : Nat} (h : DerivedBelow source length) {name : String}
    {lexemes : List Lexeme} {e : Expr} {n : Nat} (hl : lexemes.length < length)
    (hr : layered.readCall source name lexemes = .ok (e, n)) :
    Derives source.line 8 (.name name :: front n lexemes) e := by
  rw [Method.readCall] at hr
  split at hr
  · rename_i hopen
    split at hr
    · rename_i hclose
      cases hr
      rw [front_add 1 1, front_of_begins hopen, front_of_begins hclose]
      exact .callEmpty name
    · split at hr
      · cases hr
      · rename_i args k hargs
        cases hr
        obtain ⟨ts, hts, hfront⟩ := h.arguments (by rw [List.length_drop]; omega) hargs
        rw [front_add, front_of_begins hopen, hfront]
        exact .call name hts
  · cases hr

theorem DerivedBelow.primary {lexeme : Lexeme} {rest : List Lexeme}
    (h : DerivedBelow source (rest.length + 1)) {e : Expr} {n : Nat}
    (hr : layered.readPrimary source lexeme rest = .ok (e, n)) :
    Derives source.line 8 (front n (lexeme :: rest)) e := by
  have hshort : rest.length < rest.length + 1 := Nat.lt_succ_self _
  rw [Method.readPrimary] at hr
  split at hr
  · rename_i value htoken
    cases hr
    rw [front, List.take_succ_cons, List.take_zero, List.map_cons, List.map_nil, htoken]
    exact .literal value
  · rename_i name htoken
    cases hr
    rw [front, List.take_succ_cons, List.take_zero, List.map_cons, List.map_nil, htoken]
    exact .var name
  · rename_i name htoken
    obtain ⟨k, hk, rfl⟩ := Reading.after_eq_ok hr
    rw [front_cons, htoken]
    exact h.call hshort hk
  · rename_i htoken
    split at hr
    · cases hr
    · rename_i k hread
      split at hr
      · rename_i hclose
        cases hr
        rw [Nat.add_assoc, front_cons, front_add, front_of_begins hclose, htoken]
        exact .group (h 1 rest e k (by omega) hshort hread)
      · cases hr
  · cases hr

theorem DerivedBelow.unary {lexemes : List Lexeme} (h : DerivedBelow source lexemes.length)
    {e : Expr} {n : Nat} (hr : layered.readUnary source lexemes = .ok (e, n)) :
    Derives source.line 7 (front n lexemes) e := by
  cases lexemes with
  | nil =>
    rw [Method.readUnary] at hr
    cases hr
  | cons lexeme rest =>
    rw [Method.readUnary] at hr
    split at hr
    · rename_i op hop
      split at hr
      · cases hr
      · rename_i operand k hread
        cases hr
        rw [← read_of_ge layered source (Nat.le_refl 7)] at hread
        rw [front_cons, Lexeme.unaryOp?_eq_some.1 hop]
        exact .unary op (h 7 rest operand k (Nat.le_refl 7) (Nat.lt_succ_self _) hread)
    · exact .tighter (h.primary hr)

theorem DerivedBelow.read {lexemes : List Lexeme} (h : DerivedBelow source lexemes.length)
    {level : Nat} (hlevel : level ≤ 7) {e : Expr} {n : Nat}
    (hr : layered.read source level lexemes = .ok (e, n)) :
    Derives source.line level (front n lexemes) e := by
  rcases Nat.lt_or_ge level 7 with hlt | hge
  · rw [read_of_lt _ _ hlt] at hr
    obtain ⟨first, i, j, hfirst, hj, rfl⟩ := Reading.andThen_eq_ok hr
    have hinner : Derives source.line (level + 1) (front i lexemes) first := h.read hlt hfirst
    rw [front_add]
    exact h.loop hlt (by rw [List.length_drop]; omega) hinner.tighter hj
  · obtain rfl : level = 7 := by omega
    rw [read_of_ge _ _ hge] at hr
    exact h.unary hr
termination_by 7 - level

theorem derives_of_read {level : Nat} (hlevel : level ≤ 7) {lexemes : List Lexeme} {e : Expr}
    {n : Nat} (hr : layered.read source level lexemes = .ok (e, n)) :
    Derives source.line level (front n lexemes) e := by
  induction hl : lexemes.length using Nat.strong_induction_on generalizing level lexemes e n with
  | _ length ih =>
    have h : DerivedBelow source lexemes.length :=
      fun level' shorter e' n' hlevel' hs hr' => ih _ (hl ▸ hs) hlevel' hr' rfl
    exact h.read hlevel hr

theorem ofLexemes_of_derives {lexemes : List Lexeme} {e : Expr}
    (h : Derives source.line 1 (lexemes.map Lexeme.token) e) :
    ofLexemes source lexemes = .ok e := by
  have hr : climbing.read source 1 (lexemes ++ []) = .ok (e, lexemes.length) :=
    h.readAt.read rfl nofun
  rw [List.append_nil] at hr
  rw [ofLexemes_eq_read, hr, Reading.proceed, List.drop_length]
  rfl

theorem derives_of_ofLexemes {lexemes : List Lexeme} {e : Expr}
    (h : ofLexemes source lexemes = .ok e) :
    Derives source.line 1 (lexemes.map Lexeme.token) e := by
  rw [ofLexemes_eq_read] at h
  cases hr : climbing.read source 1 lexemes with
  | error misfit =>
    rw [hr] at h
    cases h
  | ok read =>
    obtain ⟨whole, n⟩ := read
    rw [hr, Reading.proceed] at h
    cases hrest : lexemes.drop n with
    | cons lexeme rest =>
      rw [hrest] at h
      cases h
    | nil =>
      rw [hrest] at h
      cases h
      rw [read_climbing_eq_layered] at hr
      have hderives := derives_of_read (by omega) hr
      rwa [front, List.take_of_length_le (List.drop_eq_nil_iff.1 hrest)] at hderives

/-- Lexemes are accepted exactly as the grammar derives them, so they have at most one tree. The
parser at any depth of its stack is the climbing reader from the level in force, and that reads
the same expression from the same lexemes, or the same misfit, as one loop for each level. -/
theorem ofLexemes_iff_derives (source : Source) (lexemes : List Lexeme) :
    (∀ e, ofLexemes source lexemes = .ok e ↔
      Derives source.line 1 (lexemes.map Lexeme.token) e) ∧
    {e | Derives source.line 1 (lexemes.map Lexeme.token) e}.Subsingleton ∧
    (∀ stack, readOperand source stack lexemes =
      (climbing.read source (floor stack) lexemes).proceed lexemes (readOperator source stack)) ∧
    ofLexemes source lexemes =
      (climbing.read source 1 lexemes).proceed lexemes (finish source) ∧
    ∀ level, climbing.read source level lexemes = layered.read source level lexemes := by
  refine ⟨fun e => ⟨derives_of_ofLexemes, ofLexemes_of_derives⟩, ?_,
    fun stack => readOperand_eq_read source stack lexemes, ofLexemes_eq_read source lexemes,
    fun level => read_climbing_eq_layered source level lexemes⟩
  intro e he e' he'
  exact Except.ok.inj ((ofLexemes_of_derives he).symm.trans (ofLexemes_of_derives he'))

end Expr

end Dialogue
