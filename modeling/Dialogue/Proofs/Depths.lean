import Dialogue.Proofs.Parsed

/-!
# Statements at every depth

A body is a tree of statements. Here its statements are listed in the order of the
body, whatever they stand in (`Statement.blockWithin`), and so are the expressions
inside an expression. What all of a tree meets, each statement in it meets too, so
every statement that a body is read as has texts, names, branches and literals of
the right form (`Statement.regular_of_ofBody`).
-/

namespace Dialogue

namespace Expr

mutual

/-- An expression, followed by all expressions inside it. -/
def within : Expr → List Expr
  | .literal line value => [.literal line value]
  | .var line name => [.var line name]
  | .call line name args => .call line name args :: argumentsWithin args
  | .unary line op operand => .unary line op operand :: operand.within
  | .binary line op left right => .binary line op left right :: (left.within ++ right.within)

def argumentsWithin : List Expr → List Expr
  | [] => []
  | e :: es => e.within ++ argumentsWithin es

end

mutual

theorem leaves_subset_of_mem_within : ∀ {e inner : Expr}, inner ∈ e.within →
    inner.leaves ⊆ e.leaves
  | .literal .., _, h => by
    obtain rfl := List.mem_singleton.1 h
    exact List.Subset.refl _
  | .var .., _, h => by
    obtain rfl := List.mem_singleton.1 h
    exact List.Subset.refl _
  | .call _ name args, inner, h => by
    rcases List.mem_cons.1 h with rfl | h
    · exact List.Subset.refl _
    · exact List.subset_cons_of_subset _ (leaves_subset_of_mem_arguments h)
  | .unary _ _ operand, inner, h => by
    rcases List.mem_cons.1 h with rfl | h
    · exact List.Subset.refl _
    · exact leaves_subset_of_mem_within (e := operand) h
  | .binary _ _ left right, inner, h => by
    rcases List.mem_cons.1 h with rfl | h
    · exact List.Subset.refl _
    · rcases List.mem_append.1 h with h | h
      · exact List.subset_append_of_subset_left _ (leaves_subset_of_mem_within h)
      · exact List.subset_append_of_subset_right _ (leaves_subset_of_mem_within h)

theorem leaves_subset_of_mem_arguments : ∀ {es : List Expr} {inner : Expr},
    inner ∈ argumentsWithin es → inner.leaves ⊆ argumentLeaves es
  | [], _, h => by cases h
  | e :: es, inner, h => by
    rcases List.mem_append.1 h with h | h
    · exact List.subset_append_of_subset_left _ (leaves_subset_of_mem_within h)
    · exact List.subset_append_of_subset_right _ (leaves_subset_of_mem_arguments h)

end

end Expr

namespace Statement

mutual

/-- A statement, followed by all statements inside it in the order of the body. -/
def within : Statement → List Statement
  | .text line content => [.text line content]
  | .link line destination => [.link line destination]
  | .option line label destination condition => [.option line label destination condition]
  | .shortcut line label condition body =>
    .shortcut line label condition body :: blockWithin body
  | .conditional line branches => .conditional line branches :: branchesWithin branches
  | .assignment line target op value => [.assignment line target op value]
  | .command line content => [.command line content]

def blockWithin : List Statement → List Statement
  | [] => []
  | s :: ss => s.within ++ blockWithin ss

def branchesWithin : List Branch → List Statement
  | [] => []
  | .mk _ _ body :: branches => blockWithin body ++ branchesWithin branches

end

mutual

theorem meets_of_mem_within {r : Rules} : ∀ {s inner : Statement}, inner ∈ s.within →
    s.meets r = true → inner.meets r = true
  | .text .., _, h, hs | .link .., _, h, hs | .option .., _, h, hs | .assignment .., _, h, hs
  | .command .., _, h, hs => by
    obtain rfl := List.mem_singleton.1 h
    exact hs
  | .shortcut _ _ _ body, inner, h, hs => by
    rcases List.mem_cons.1 h with rfl | h
    · exact hs
    · simp only [meets, Bool.and_eq_true] at hs
      exact meets_of_mem_blockWithin h hs.2
  | .conditional _ branches, inner, h, hs => by
    rcases List.mem_cons.1 h with rfl | h
    · exact hs
    · simp only [meets, Bool.and_eq_true] at hs
      exact meets_of_mem_branchesWithin h hs.2

theorem meets_of_mem_blockWithin {r : Rules} : ∀ {ss : List Statement} {inner : Statement},
    inner ∈ blockWithin ss → blockMeets r ss = true → inner.meets r = true
  | [], _, h, _ => by cases h
  | s :: ss, inner, h, hs => by
    simp only [blockMeets, Bool.and_eq_true] at hs
    rcases List.mem_append.1 h with h | h
    · exact meets_of_mem_within h hs.1
    · exact meets_of_mem_blockWithin h hs.2

theorem meets_of_mem_branchesWithin {r : Rules} : ∀ {bs : List Branch} {inner : Statement},
    inner ∈ branchesWithin bs → branchesMeet r bs = true → inner.meets r = true
  | [], _, h, _ => by cases h
  | .mk _ _ body :: bs, inner, h, hs => by
    simp only [branchesMeet, Bool.and_eq_true] at hs
    rcases List.mem_append.1 h with h | h
    · exact meets_of_mem_blockWithin h hs.1.2
    · exact meets_of_mem_branchesWithin h hs.2

end

/-- The expressions of a statement itself, those of statements inside it left out. -/
def expressions : Statement → List Expr
  | .option _ _ _ condition => condition.toList
  | .shortcut _ _ condition _ => condition.toList
  | .conditional _ branches => branches.filterMap Branch.condition
  | .assignment _ _ _ value => [value]
  | _ => []

theorem conditionMeets_toList {r : Rules} {condition : Option Expr} {e : Expr}
    (he : e ∈ condition.toList) (h : conditionMeets r condition = true) : e.meets r = true := by
  obtain rfl := Option.mem_toList.1 he
  exact h

theorem conditionMeets_of_mem {r : Rules} {branches : List Branch} {e : Expr}
    (he : e ∈ branches.filterMap Branch.condition) (h : branchesMeet r branches = true) :
    e.meets r = true := by
  induction branches with
  | nil => cases he
  | cons branch branches ih =>
    obtain ⟨line, condition, body⟩ := branch
    simp only [branchesMeet, Bool.and_eq_true] at h
    cases condition with
    | none => exact ih he h.2
    | some first =>
      rcases List.mem_cons.1 he with rfl | he
      · exact h.1.1
      · exact ih he h.2

theorem meets_of_mem_expressions {r : Rules} {s : Statement} {e : Expr}
    (he : e ∈ s.expressions) (hs : s.meets r = true) : e.meets r = true := by
  cases s with
  | text | link | command => cases he
  | option =>
    simp only [meets, Bool.and_eq_true] at hs
    exact conditionMeets_toList he hs.2
  | shortcut =>
    simp only [meets, Bool.and_eq_true] at hs
    exact conditionMeets_toList he hs.1.2
  | conditional =>
    simp only [meets, Bool.and_eq_true] at hs
    exact conditionMeets_of_mem he hs.2
  | assignment =>
    simp only [meets, Bool.and_eq_true] at hs
    obtain rfl := List.mem_singleton.1 he
    exact hs.2

end Statement

namespace Decimal

open Float.Model Float.Model.UnpackedFloat

theorem toNat_unpackSign (b : BitVec 64) :
    (@unpackSign .binary64 b).toNat = b.toNat / 2 ^ 63 := by
  have hb := b.isLt
  have hsign : (@unpackSign .binary64 b).toNat = b.toNat / 2 ^ 63 % 2 := by
    simp [unpackSign, Nat.shiftRight_eq_div_pow]
  omega

theorem unpack_of_le {b : BitVec 64} (h : b.toNat ≤ infinityBits) :
    (UnpackedFloat.unpack .binary64 b).isNaN = false ∧
      (UnpackedFloat.unpack .binary64 b).lt (.zero .positive) = false := by
  have hi : infinityBits = 0x7FF0000000000000 := rfl
  have hsign : Sign.ofBitVec (@unpackSign .binary64 b) = .positive := by
    have hzero : @unpackSign .binary64 b = 0#1 := by
      apply BitVec.eq_of_toNat_eq
      rw [toNat_unpackSign]
      show _ = 0
      omega
    rw [hzero]
    rfl
  -- With the largest exponent only the pattern of infinity is small enough.
  have hnumber : @unpackExponent .binary64 b = -1#11 → @unpackMantissa .binary64 b = 0#52 := by
    intro he
    have hexponent := congrArg BitVec.toNat he
    have hlargest : (-1#11).toNat = 2047 := rfl
    rw [toNat_unpackExponent, hlargest] at hexponent
    apply BitVec.eq_of_toNat_eq
    rw [toNat_unpackMantissa]
    show b.toNat % 2 ^ 52 = 0
    omega
  unfold UnpackedFloat.unpack
  simp only [hsign]
  split
  · rename_i he
    rw [if_pos (hnumber he)]
    exact ⟨rfl, rfl⟩
  · split
    · split
      · exact ⟨rfl, rfl⟩
      · exact ⟨rfl, rfl⟩
    · exact ⟨rfl, rfl⟩

theorem nonnegative_of_isUnsigned {x : Float} (h : isUnsigned x = true) :
    x.isNaN = false ∧ ¬x < 0 := by
  have hb : x.toBits.toBitVec.toNat ≤ infinityBits := by simpa [isUnsigned] using h
  obtain ⟨hnumber, hsign⟩ := unpack_of_le hb
  refine ⟨hnumber, ?_⟩
  have hzero : (0 : Float).toModel.unpack = .zero .positive := by rfl
  have hlt : x.toModel.unpack.lt (0 : Float).toModel.unpack = false := by
    rw [hzero]
    exact hsign
  show ¬Float.lt x 0 = true
  simp only [Float.lt, decide_eq_true_eq]
  show ¬Float.Model.lt _ _ = true
  rw [Float.Model.lt, hlt]
  decide

end Decimal

/-! ### What statements and expressions are like -/

namespace Text

/-- A text of one line: not empty, without blanks at its ends, and without a line break. -/
structure OneLine (cs : List Char) : Prop where
  ne_nil : cs ≠ []
  trimmed : trim cs = cs
  newline : '\n' ∉ cs

theorem oneLine_of_isPhrase {cs : List Char} (h : isPhrase cs = true) : OneLine cs := by
  have hp := (phrase_iff_isPhrase cs).2 h
  exact ⟨hp.ne_nil, hp.trim, hp.newline⟩

theorem not_infix_of_hasDouble {c : Char} {cs : List Char} (h : hasDouble c cs = false) :
    ¬[c, c] <:+: cs := by
  rintro ⟨front, back, rfl⟩
  have hinner := (hasDouble_of_append (hasDouble_of_append h).1).2
  simp [hasDouble] at hinner

end Text

/-- What an expression is like, apart from the expressions inside it: a number is a number and
not negative, a variable is named by an identifier, and a function by one that is no word of
the language. -/
def Expr.Regular : Expr → Prop
  | .literal _ (.number x) => x.isNaN = false ∧ ¬x < 0
  | .var _ name => isIdentifier name.toList = true
  | .call _ name _ =>
    isIdentifier name.toList = true ∧ name.toList ∉ Token.keywords.map Prod.fst
  | _ => True

/-- What a statement is like, apart from the statements and expressions inside it. -/
def Statement.Regular : Statement → Prop
  | .text _ content => Text.OneLine content.toList
  | .link _ destination =>
    Text.OneLine destination.toList ∧ '|' ∉ destination.toList ∧
      ¬[']', ']'] <:+: destination.toList
  | .option _ label destination _ =>
    Text.OneLine label.toList ∧ '|' ∉ label.toList ∧ ¬[']', ']'] <:+: label.toList ∧
      destination.toList ≠ [] ∧ ∀ c ∈ destination.toList, Mode.isDestinationChar c = true
  | .shortcut _ label _ _ => Text.OneLine label.toList
  | .conditional _ branches =>
    (∃ first rest, branches = first :: rest ∧ first.condition.isSome = true) ∧
      ∀ branch ∈ branches.dropLast, branch.condition.isSome = true
  | .assignment _ target _ _ => Expr.isIdentifier target.toList = true
  | .command _ content =>
    Text.trim content.toList = content.toList ∧ '\n' ∉ content.toList ∧
      ¬['>', '>'] <:+: content.toList ∧
      String.ofList (content.toList.takeWhile isKeywordChar) ∉ directiveWords

theorem Expr.regular_of_meets {e : Expr} (h : e.meets .parsed = true) : e.Regular := by
  have hleaf : ∀ t ∈ e.leaves, t.isSpellable = true := List.all_eq_true.1 h
  match e with
  | .literal _ (.number x) =>
    exact Decimal.nonnegative_of_isUnsigned (hleaf (.literal (.number x)) List.mem_cons_self)
  | .literal _ (.string _) | .literal _ (.bool _) | .unary .. | .binary .. => trivial
  | .var _ name => exact hleaf (.var name) List.mem_cons_self
  | .call _ name args =>
    have hname := hleaf (.name name) List.mem_cons_self
    simp only [Token.isSpellable, isFunctionName, Bool.and_eq_true, Option.isNone_iff_eq_none,
      List.lookup_eq_none_iff] at hname
    refine ⟨hname.1, fun hmem => ?_⟩
    obtain ⟨entry, hentry, heq⟩ := List.mem_map.1 hmem
    have hne := hname.2 entry hentry
    rw [heq] at hne
    simp at hne

namespace Statement

theorem regular_conditional {line : Nat} {branches : List Branch}
    (h : Rules.areBranches (branches.map fun b => b.condition.isSome) = true) :
    (Statement.conditional line branches).Regular := by
  simp only [Rules.areBranches, Bool.and_eq_true, beq_iff_eq, List.all_eq_true, id] at h
  refine ⟨?_, fun branch hb => ?_⟩
  · cases branches with
    | nil => cases h.1
    | cons first rest => exact ⟨first, rest, rfl, Option.some.inj h.1⟩
  · refine h.2 _ ?_
    rw [← List.map_dropLast]
    exact List.mem_map.2 ⟨branch, hb, rfl⟩

theorem regular_of_meets {s : Statement} (h : s.meets .parsed = true) : s.Regular := by
  cases s with
  | text => exact Text.oneLine_of_isPhrase h
  | link =>
    simp only [meets, Rules.parsed, Bool.and_eq_true, Bool.not_eq_true',
      List.contains_eq_mem, decide_eq_false_iff_not] at h
    exact ⟨Text.oneLine_of_isPhrase h.1.1, h.1.2, Text.not_infix_of_hasDouble h.2⟩
  | option =>
    simp only [meets, Rules.parsed, Rules.isDestination, Bool.and_eq_true, Bool.not_eq_true',
      List.contains_eq_mem, decide_eq_false_iff_not, bne_iff_ne, List.all_eq_true] at h
    obtain ⟨⟨⟨⟨hlabel, hbar⟩, hdouble⟩, hne, hchars⟩, -⟩ := h
    exact ⟨Text.oneLine_of_isPhrase hlabel, hbar, Text.not_infix_of_hasDouble hdouble, hne, hchars⟩
  | shortcut =>
    simp only [meets, Rules.parsed, Bool.and_eq_true] at h
    exact Text.oneLine_of_isPhrase h.1.1.1
  | conditional =>
    simp only [meets, Bool.and_eq_true] at h
    exact regular_conditional h.1
  | assignment =>
    simp only [meets, Bool.and_eq_true] at h
    exact h.1
  | command line content =>
    simp only [meets, Rules.parsed, Bool.and_eq_true, Bool.not_eq_true', beq_iff_eq,
      List.contains_eq_mem, decide_eq_false_iff_not, isDirective] at h
    obtain ⟨⟨⟨htrim, hnewline⟩, hdouble⟩, hword⟩ := h
    have hstart : Text.trimStart content.toList = content.toList :=
      Text.trimStart_eq_self (Text.first_of_trim_eq htrim)
    refine ⟨htrim, hnewline, Text.not_infix_of_hasDouble hdouble, ?_⟩
    rw [leadingWord] at hword
    simp only [hstart] at hword
    exact hword

/-- Every statement that a body is read as has the form of a statement, at every depth, and so has
every expression in it. -/
theorem regular_of_ofBody {body : List Char} {ss : List Statement} (h : ofBody body = .ok ss) :
    ∀ s ∈ blockWithin ss, s.Regular ∧ ∀ e ∈ s.expressions, ∀ inner ∈ e.within, inner.Regular := by
  intro s hs
  have hmeets : s.meets .parsed = true := meets_of_mem_blockWithin hs (blockMeets_of_ofBody h)
  refine ⟨regular_of_meets hmeets, fun e he inner hinner => Expr.regular_of_meets ?_⟩
  have hexpr : ∀ t ∈ e.leaves, Rules.parsed.leaf t = true :=
    List.all_eq_true.1 (meets_of_mem_expressions he hmeets)
  exact List.all_eq_true.2 fun t ht => hexpr t (Expr.leaves_subset_of_mem_within hinner ht)

/-- A body with every kind of statement, some of them inside others. -/
def gatehouse : List Char :=
  "-> Knock <<if !$open>>\n\t<<if visited(\"Gate\")>>\n\t\t\\[[ sealed\n\t\t[[In|Hall]]\n\t<<else>>\n\t\t<<set $n to $k>>\n\t\t<<bell >>\n\t<<endif>>\n[[Road]]".toList

theorem regular_of_ofBody_gatehouse :
    ∃ ss, ofBody gatehouse = .ok ss ∧ .text 3 "[[ sealed" ∈ blockWithin ss ∧
      .command 7 "bell" ∈ blockWithin ss ∧ ∀ s ∈ blockWithin ss,
        s.Regular ∧ ∀ e ∈ s.expressions, ∀ inner ∈ e.within, inner.Regular := by
  have hread : ofBody gatehouse = .ok
      [.shortcut 1 "Knock" (some (.unary 1 .not (.var 1 "open")))
          [.conditional 2
            [.mk 2 (some (.call 2 "visited" [.literal 2 (.string "Gate")]))
                [.text 3 "[[ sealed", .option 4 "In" "Hall" none],
              .mk 5 none [.assignment 6 "n" .set (.var 6 "k"), .command 7 "bell"]]],
        .link 9 "Road"] := by cbv
  refine ⟨_, hread, ?_, ?_, regular_of_ofBody hread⟩
  · simp [blockWithin, within, branchesWithin]
  · simp [blockWithin, within, branchesWithin]

end Statement

end Dialogue
