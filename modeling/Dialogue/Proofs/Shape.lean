import Dialogue.Body.Mode
import Dialogue.Proofs.Regrouping
import Dialogue.Statement.Directive

/-!
# The shape of statements

What the texts, names and expressions of a statement are like, at every depth. The
rules are a parameter (`Statement.meets`): one set of them says which statements can
be written and read back, another which statements a body is read as. Lines are no
part of the shape, and are erased before two statements are compared
(`Statement.erased`).
-/

namespace Dialogue

namespace Text

/-- Whether a character stands twice in a row. -/
def hasDouble (c : Char) : List Char → Bool
  | a :: b :: cs => (a == c && b == c) || hasDouble c (b :: cs)
  | _ => false

/-- Whether a text is not empty, stands on one line, and has no blanks at its ends. -/
def isPhrase (cs : List Char) : Bool := cs != [] && trim cs == cs && !cs.contains '\n'

theorem trimStart_eq_self {cs : List Char} (h : ∀ c ∈ cs.head?, isBlank c = false) :
    trimStart cs = cs := by
  cases cs with
  | nil => rfl
  | cons c cs => simp [trimStart, h c rfl]

theorem trimEnd_eq_self {cs : List Char} (h : ∀ c ∈ cs.getLast?, isBlank c = false) :
    trimEnd cs = cs := by
  rcases List.eq_nil_or_concat cs with rfl | ⟨ds, d, rfl⟩
  · rfl
  · have hd : isBlank d = false := h d (by simp)
    simp [trimEnd, hd]

theorem trimEnd_append_of_isBlank {cs : List Char} {c : Char} (h : isBlank c = true) :
    trimEnd (cs ++ [c]) = trimEnd cs := by
  simp [trimEnd, h]

theorem length_trimStart_le (cs : List Char) : (trimStart cs).length ≤ cs.length :=
  (List.dropWhile_sublist isBlank).length_le

theorem length_trimEnd_le (cs : List Char) : (trimEnd cs).length ≤ cs.length := by
  have h := (List.dropWhile_sublist isBlank (l := cs.reverse)).length_le
  simpa [trimEnd] using h

structure Phrase (cs : List Char) : Prop where
  ne_nil : cs ≠ []
  first : ∀ c ∈ cs.head?, isBlank c = false
  last : ∀ c ∈ cs.getLast?, isBlank c = false
  newline : '\n' ∉ cs

theorem Phrase.trim {cs : List Char} (h : Phrase cs) : trim cs = cs := by
  rw [Text.trim, trimStart_eq_self h.first, trimEnd_eq_self h.last]

theorem first_of_trim_eq {cs : List Char} (h : trim cs = cs) :
    ∀ c ∈ cs.head?, isBlank c = false := by
  intro c hc
  cases cs with
  | nil => cases hc
  | cons d ds =>
    cases hc
    cases hb : isBlank c with
    | false => rfl
    | true =>
      have hs : trimStart (c :: ds) = trimStart ds := by simp [trimStart, hb]
      have hlen := congrArg List.length h
      rw [Text.trim, hs] at hlen
      have h1 := length_trimEnd_le (trimStart ds)
      have h2 := length_trimStart_le ds
      simp only [List.length_cons] at hlen
      omega

theorem last_of_trim_eq {cs : List Char} (h : trim cs = cs) :
    ∀ c ∈ cs.getLast?, isBlank c = false := by
  intro c hc
  rcases List.eq_nil_or_concat cs with rfl | ⟨ds, d, rfl⟩
  · cases hc
  · rw [List.concat_eq_append] at h hc
    have hd : d = c := by simpa using hc
    subst hd
    cases hb : isBlank d with
    | false => rfl
    | true =>
      have hlen := congrArg List.length h
      rw [Text.trim, trimStart_eq_self (first_of_trim_eq h), trimEnd_append_of_isBlank hb] at hlen
      have h1 := length_trimEnd_le ds
      simp only [List.length_append, List.length_singleton] at hlen
      omega

theorem phrase_iff_isPhrase (cs : List Char) : Phrase cs ↔ isPhrase cs = true := by
  simp only [isPhrase, Bool.and_eq_true, bne_iff_ne, beq_iff_eq, Bool.not_eq_true',
    List.contains_eq_mem, decide_eq_false_iff_not]
  constructor
  · intro h
    exact ⟨⟨h.ne_nil, h.trim⟩, h.newline⟩
  · rintro ⟨⟨hne, ht⟩, hn⟩
    exact ⟨hne, first_of_trim_eq ht, last_of_trim_eq ht, hn⟩

theorem Phrase.trim_space {cs : List Char} (h : Phrase cs) : Text.trim (' ' :: cs) = cs := by
  have hs : trimStart (' ' :: cs) = trimStart cs := by
    have hb : isBlank ' ' = true := by decide
    simp [trimStart, hb]
  rw [Text.trim, hs]
  exact h.trim

theorem Phrase.trim_spaces {cs : List Char} (h : Phrase cs) :
    Text.trim (' ' :: cs ++ [' ']) = cs := by
  have hb : isBlank ' ' = true := by decide
  have hs : trimStart (' ' :: cs ++ [' ']) = cs ++ [' '] := by
    have hc : trimStart (cs ++ [' ']) = cs ++ [' '] := by
      refine trimStart_eq_self fun c hc => h.first c ?_
      obtain ⟨d, ds, rfl⟩ := List.exists_cons_of_ne_nil h.ne_nil
      exact hc
    rw [← hc]
    simp [trimStart, hb]
  rw [Text.trim, hs, trimEnd_append_of_isBlank hb, trimEnd_eq_self h.last]

end Text

def directiveWords : List String := ["set", "if", "elseif", "else", "endif"]

def isDirective (cs : List Char) : Bool :=
  directiveWords.contains (String.ofList (leadingWord cs).1)

/-- Whether a leaf is written without the bracket that ends a command. -/
def Expr.Token.isSealed : Expr.Token → Bool
  | .literal (.string s) => !Text.hasDouble '>' s.toList
  | _ => true

/-! ### Rules -/

/-- What the parts of a statement should be like. -/
structure Rules where
  text : List Char → Bool := fun _ => true
  link : List Char → Bool := fun _ => true
  label : List Char → Bool := fun _ => true
  destination : List Char → Bool := fun _ => true
  shortcut : List Char → Bool := fun _ => true
  command : List Char → Bool := fun _ => true
  target : List Char → Bool := fun _ => true
  leaf : Expr.Token → Bool := fun _ => true
  /-- Which branches of a conditional have a condition. -/
  branches : List Bool → Bool := fun _ => true

def Expr.meets (r : Rules) (e : Expr) : Bool := e.leaves.all r.leaf

def conditionMeets (r : Rules) : Option Expr → Bool
  | some e => e.meets r
  | none => true

namespace Statement

mutual

/-- Whether all parts of a statement meet the rules, at every depth. -/
def meets (r : Rules) : Statement → Bool
  | .text _ content => r.text content.toList
  | .link _ destination => r.link destination.toList
  | .option _ label destination condition =>
    r.label label.toList && r.destination destination.toList && conditionMeets r condition
  | .shortcut _ label condition body =>
    r.shortcut label.toList && conditionMeets r condition && blockMeets r body
  | .conditional _ branches =>
    r.branches (branches.map fun b => b.condition.isSome) && branchesMeet r branches
  | .assignment _ target _ value => r.target target.toList && value.meets r
  | .command _ content => r.command content.toList

def blockMeets (r : Rules) : List Statement → Bool
  | [] => true
  | s :: ss => s.meets r && blockMeets r ss

def branchesMeet (r : Rules) : List Branch → Bool
  | [] => true
  | .mk _ condition body :: branches =>
    conditionMeets r condition && blockMeets r body && branchesMeet r branches

end

end Statement

/-! ### Statements that can be written and read back -/

namespace Rules

def isDestination (cs : List Char) : Bool := cs != [] && cs.all Mode.isDestinationChar

/-- The first branch has a condition, and at most the last one has none. -/
def areBranches (heads : List Bool) : Bool := heads.head? == some true && heads.dropLast.all id

/-- What can be written such that it is read back: no text holds the brackets that would end it,
and no command is mistaken for another one. -/
def wellFormed : Rules where
  text := Text.isPhrase
  link cs := Text.isPhrase cs && !cs.contains '|' && !Text.hasDouble ']' cs &&
    cs.getLast? != some ']'
  label cs := Text.isPhrase cs && !cs.contains '|' && !Text.hasDouble ']' cs
  destination := isDestination
  shortcut cs := Text.isPhrase cs && !Text.hasDouble '[' cs && !Text.hasDouble '<' cs
  command cs := Text.isPhrase cs && !Text.hasDouble '>' cs && cs.getLast? != some '>' &&
    !isDirective cs
  target := Expr.isIdentifier
  leaf t := t.isSpellable && t.isFinite && t.isSealed
  branches := areBranches

/-- The same, but a bracket in the text of a shortcut option may be shielded by a backslash. -/
def printable : Rules :=
  { wellFormed with
    shortcut := fun cs => Text.isPhrase cs && Mode.base.textLength cs == cs.length }

/-- What meets two sets of rules meets a third one. -/
structure Entails (r r' goal : Rules) : Prop where
  text : ∀ cs, r.text cs = true → r'.text cs = true → goal.text cs = true
  link : ∀ cs, r.link cs = true → r'.link cs = true → goal.link cs = true
  label : ∀ cs, r.label cs = true → r'.label cs = true → goal.label cs = true
  destination : ∀ cs, r.destination cs = true → r'.destination cs = true →
    goal.destination cs = true
  shortcut : ∀ cs, r.shortcut cs = true → r'.shortcut cs = true → goal.shortcut cs = true
  command : ∀ cs, r.command cs = true → r'.command cs = true → goal.command cs = true
  target : ∀ cs, r.target cs = true → r'.target cs = true → goal.target cs = true
  leaf : ∀ t, r.leaf t = true → r'.leaf t = true → goal.leaf t = true
  branches : ∀ heads, r.branches heads = true → r'.branches heads = true →
    goal.branches heads = true

end Rules

section

variable {r r' goal : Rules}

theorem Expr.meets_of_entails (h : r.Entails r' goal) (e : Expr) (he : e.meets r = true)
    (he' : e.meets r' = true) : e.meets goal = true := by
  unfold Expr.meets at he he' ⊢
  rw [List.all_eq_true] at he he' ⊢
  exact fun t ht => h.leaf t (he t ht) (he' t ht)

theorem conditionMeets_of_entails (h : r.Entails r' goal) (condition : Option Expr)
    (hc : conditionMeets r condition = true) (hc' : conditionMeets r' condition = true) :
    conditionMeets goal condition = true := by
  cases condition with
  | none => rfl
  | some e => exact e.meets_of_entails h hc hc'

namespace Statement

mutual

theorem meets_of_entails (h : r.Entails r' goal) : ∀ s : Statement, s.meets r = true →
    s.meets r' = true → s.meets goal = true
  | .text _ _, hs, hs' => h.text _ hs hs'
  | .link _ _, hs, hs' => h.link _ hs hs'
  | .option _ _ _ condition, hs, hs' => by
    simp only [meets, Bool.and_eq_true] at hs hs' ⊢
    exact ⟨⟨h.label _ hs.1.1 hs'.1.1, h.destination _ hs.1.2 hs'.1.2⟩,
      conditionMeets_of_entails h condition hs.2 hs'.2⟩
  | .shortcut _ _ condition body, hs, hs' => by
    simp only [meets, Bool.and_eq_true] at hs hs' ⊢
    exact ⟨⟨h.shortcut _ hs.1.1 hs'.1.1, conditionMeets_of_entails h condition hs.1.2 hs'.1.2⟩,
      blockMeets_of_entails h body hs.2 hs'.2⟩
  | .conditional _ branches, hs, hs' => by
    simp only [meets, Bool.and_eq_true] at hs hs' ⊢
    exact ⟨h.branches _ hs.1 hs'.1, branchesMeet_of_entails h branches hs.2 hs'.2⟩
  | .assignment _ _ _ value, hs, hs' => by
    simp only [meets, Bool.and_eq_true] at hs hs' ⊢
    exact ⟨h.target _ hs.1 hs'.1, value.meets_of_entails h hs.2 hs'.2⟩
  | .command _ _, hs, hs' => h.command _ hs hs'

theorem blockMeets_of_entails (h : r.Entails r' goal) : ∀ ss : List Statement,
    blockMeets r ss = true → blockMeets r' ss = true → blockMeets goal ss = true
  | [], _, _ => rfl
  | s :: ss, hs, hs' => by
    simp only [blockMeets, Bool.and_eq_true] at hs hs' ⊢
    exact ⟨meets_of_entails h s hs.1 hs'.1, blockMeets_of_entails h ss hs.2 hs'.2⟩

theorem branchesMeet_of_entails (h : r.Entails r' goal) : ∀ bs : List Branch,
    branchesMeet r bs = true → branchesMeet r' bs = true → branchesMeet goal bs = true
  | [], _, _ => rfl
  | .mk _ condition body :: bs, hs, hs' => by
    simp only [branchesMeet, Bool.and_eq_true] at hs hs' ⊢
    exact ⟨⟨conditionMeets_of_entails h condition hs.1.1 hs'.1.1,
      blockMeets_of_entails h body hs.1.2 hs'.1.2⟩, branchesMeet_of_entails h bs hs.2 hs'.2⟩

end

end Statement

end

def erasedCondition (condition : Option Expr) : Option Expr := condition.map (Expr.atLine 0)

namespace Statement

mutual

def erased : Statement → Statement
  | .text _ content => .text 0 content
  | .link _ destination => .link 0 destination
  | .option _ label destination condition =>
    .option 0 label destination (erasedCondition condition)
  | .shortcut _ label condition body =>
    .shortcut 0 label (erasedCondition condition) (erasedBlock body)
  | .conditional _ branches => .conditional 0 (erasedBranches branches)
  | .assignment _ target op value => .assignment 0 target op (value.atLine 0)
  | .command _ content => .command 0 content

def erasedBlock : List Statement → List Statement
  | [] => []
  | s :: ss => s.erased :: erasedBlock ss

def erasedBranches : List Branch → List Branch
  | [] => []
  | .mk _ condition body :: branches =>
    .mk 0 (erasedCondition condition) (erasedBlock body) :: erasedBranches branches

end

end Statement

end Dialogue
