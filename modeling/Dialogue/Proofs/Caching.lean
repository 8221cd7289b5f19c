import Dialogue.Proofs.Twins

/-!
# Loading nodes and keeping their parses

A title stands for the node that was loaded last under it, whatever the order of
loads, runs and steps has been, and what is kept of a parse is never out of date
(`Library.Shelved`). Playing touches the library by looking up bodies, and by nothing
else (`Run.next_consults`). So a machine that forgets all parses before every step,
and parses a body each time it enters a node, plays in the same way.
-/

namespace Dialogue

namespace Table

variable {α : Type}

theorem mem_names_iff (t : Table α) (name : String) : name ∈ t.names ↔ (t.get? name).isSome := by
  rw [get?, List.lookup_isSome_iff, names, List.mem_map]
  refine exists_congr fun entry => and_congr_right fun _ => ?_
  rw [beq_iff_eq, eq_comm]

theorem get?_of_mem {t : Table α} (h : t.names.Nodup) {name : String} {value : α}
    (hm : (name, value) ∈ t.entries) : t.get? name = some value := by
  obtain ⟨before, later, he⟩ := List.append_of_mem hm
  rw [get?, List.lookup_eq_some_iff]
  refine ⟨before, later, he, fun entry hentry => ?_⟩
  rw [names, he, List.map_append, List.map_cons, List.nodup_append] at h
  have hne : entry.1 ≠ name :=
    h.2.2 entry.1 (List.mem_map_of_mem hentry) name List.mem_cons_self
  simpa using Ne.symm hne

theorem mem_names_insertEntry (name other : String) (value : α) (entries : List (String × α)) :
    other ∈ (insertEntry name value entries).map Prod.fst ↔
      other = name ∨ other ∈ entries.map Prod.fst := by
  induction entries with
  | nil => simp [insertEntry]
  | cons entry entries ih =>
    obtain ⟨key, old⟩ := entry
    by_cases hk : key = name
    · simp only [insertEntry, hk, if_true, List.map_cons, List.mem_cons]
      tauto
    · simp only [insertEntry, hk, if_false, List.map_cons, List.mem_cons, ih]
      tauto

theorem nodup_insert {t : Table α} (h : t.names.Nodup) (name : String) (value : α) :
    (t.insert name value).names.Nodup := by
  unfold names insert at *
  induction hentries : t.entries generalizing t with
  | nil => simp [insertEntry]
  | cons entry entries ih =>
    obtain ⟨key, old⟩ := entry
    rw [hentries, List.map_cons, List.nodup_cons] at h
    by_cases hk : key = name
    · simp only [insertEntry, hk, if_true, List.map_cons, List.nodup_cons]
      rw [← hk]
      exact h
    · rw [insertEntry, if_neg hk, List.map_cons, List.nodup_cons, mem_names_insertEntry, not_or]
      exact ⟨⟨hk, h.1⟩, ih (t := ⟨entries⟩) h.2 rfl⟩

theorem nodup_erase {t : Table α} (h : t.names.Nodup) (name : String) :
    (t.erase name).names.Nodup :=
  h.sublist (List.filter_sublist.map Prod.fst)

theorem mem_sortedNames (t : Table α) (name : String) :
    name ∈ t.sortedNames ↔ (t.get? name).isSome := by
  rw [sortedNames, List.mem_mergeSort, mem_names_iff]

theorem sortedNames_pairwise {t : Table α} (h : t.names.Nodup) :
    t.sortedNames.Pairwise (· < ·) := by
  have hsorted : t.sortedNames.Pairwise fun a b => decide (a ≤ b) = true := by
    refine List.pairwise_mergeSort (fun a b c hab hbc => ?_) (fun a b => ?_) _
    · rw [decide_eq_true_iff] at hab hbc ⊢
      exact String.le_trans hab hbc
    · simpa using String.le_total a b
  have hdistinct : t.sortedNames.Nodup := (List.mergeSort_perm _ _).nodup_iff.2 h
  refine List.Pairwise.imp₂ (fun a b hle hne => ?_) hsorted hdistinct
  rw [decide_eq_true_iff] at hle
  by_contra hlt
  exact hne (String.le_antisymm hle (String.not_lt.1 hlt))

end Table

namespace Library

def consulted (l : Library) (titles : List String) : Library :=
  titles.foldl (fun l title => (l.statements title).2) l

theorem statements_nodes (l : Library) (title : String) :
    (l.statements title).2.nodes = l.nodes := by
  unfold statements
  repeat' split
  all_goals rfl

theorem statements_parsed (l : Library) (title : String) :
    (l.statements title).2.parsed = l.parsed ∨
      ∃ body, (l.statements title).2.parsed = l.parsed.insert title body := by
  unfold statements
  split
  · exact Or.inl rfl
  · split
    · exact Or.inl rfl
    · split
      · exact Or.inl rfl
      · exact Or.inr ⟨_, rfl⟩

/-- A library into which these nodes have been loaded, one after the other. -/
structure Shelved (l : Library) (loaded : List Node) : Prop where
  nodes : ∀ title, l.nodes.get? title = loaded.reverse.find? fun node => node.title = title
  distinct : l.nodes.names.Nodup
  parsed : l.parsed.names.Nodup
  coherent : l.Coherent

variable {l : Library} {loaded : List Node}

theorem shelved_empty : Shelved {} [] :=
  ⟨fun _ => rfl, List.nodup_nil, List.nodup_nil, coherent_empty⟩

theorem Shelved.loadNode (h : l.Shelved loaded) (node : Node) :
    (l.loadNode node).Shelved (loaded ++ [node]) := by
  have hnodes : ∀ title, (l.loadNode node).nodes.get? title =
      if node.title = title then some node else l.nodes.get? title := by
    intro title
    unfold Library.loadNode
    by_cases ht : node.title = title
    · subst ht
      split
      · rename_i hsame
        simp [hsame]
      · simp
    · simp only [ht, if_false]
      split
      · rfl
      · exact Table.get?_insert_of_ne l.nodes node.title title node (Ne.symm ht)
  refine ⟨fun title => ?_, ?_, ?_, h.coherent.loadNode node⟩
  · rw [hnodes, h.nodes, List.reverse_append, List.reverse_singleton, List.singleton_append,
      List.find?_cons]
    by_cases ht : node.title = title <;> simp [ht]
  · unfold Library.loadNode
    split
    · exact h.distinct
    · exact Table.nodup_insert h.distinct node.title node
  · unfold Library.loadNode
    split
    · exact h.parsed
    · exact Table.nodup_erase h.parsed node.title

theorem Shelved.load (h : l.Shelved loaded) (nodes : List Node) :
    (l.load nodes).Shelved (loaded ++ nodes) := by
  unfold Library.load
  induction nodes generalizing l loaded with
  | nil =>
    rw [List.append_nil]
    exact h
  | cons node nodes ih =>
    have hrest := ih (h.loadNode node)
    rw [List.append_assoc, List.singleton_append] at hrest
    exact hrest

theorem Shelved.statements (h : l.Shelved loaded) (title : String) :
    (l.statements title).2.Shelved loaded := by
  have hnodes := l.statements_nodes title
  refine ⟨?_, ?_, ?_, (h.coherent.statements title).2.2⟩
  · rw [hnodes]
    exact h.nodes
  · rw [hnodes]
    exact h.distinct
  · rcases l.statements_parsed title with hp | ⟨body, hp⟩
    · rw [hp]
      exact h.parsed
    · rw [hp]
      exact Table.nodup_insert h.parsed title body

theorem Shelved.consulted (h : l.Shelved loaded) (titles : List String) :
    (l.consulted titles).Shelved loaded := by
  unfold Library.consulted
  induction titles generalizing l with
  | nil => exact h
  | cons title titles ih => exact ih (h.statements title)

end Library

namespace Run

theorem step_consults (g : Stage) (r : Run) :
    ∃ titles, (step g r).2.1.library = g.library.consulted titles := by
  rcases (step_keeps g r).library with hl | ⟨title, hl⟩
  · exact ⟨[], hl⟩
  · exact ⟨[title], hl⟩

theorem advance_consults (limit : Nat) (g : Stage) (r : Run) :
    ∃ titles, (advance limit g r).2.1.library = g.library.consulted titles := by
  induction limit generalizing g r with
  | zero => exact ⟨[], rfl⟩
  | succ limit ih =>
    obtain ⟨titles, hstep⟩ := step_consults g r
    unfold advance
    split
    · rename_i g' r' he
      rw [he] at hstep
      obtain ⟨more, hrest⟩ := ih g' r'
      refine ⟨titles ++ more, ?_⟩
      rw [hrest, show g'.library = _ from hstep, Library.consulted, Library.consulted,
        Library.consulted, List.foldl_append]
    · exact ⟨titles, hstep⟩

/-- Asking a run to go on looks up bodies, and does nothing else to the library. -/
theorem next_consults (limit : Nat) (g : Stage) (r : Run) :
    ∃ titles, (next limit g r).2.1.library = g.library.consulted titles := by
  cases hd : r.done with
  | true =>
    rw [next_of_done hd]
    exact ⟨[], rfl⟩
  | false =>
    rw [next_of_not_done hd, report_stage]
    exact advance_consults limit g r

end Run

namespace Host

def Action.loaded : Action → List Node
  | .load nodes => nodes
  | _ => []

theorem act_shelved {h : Host} {loaded : List Node} (hs : h.stage.library.Shelved loaded)
    (a : Action) : (h.act a).stage.library.Shelved (loaded ++ a.loaded) := by
  have hsame : h.stage.library.Shelved (loaded ++ []) := by
    rw [List.append_nil]
    exact hs
  cases a with
  | load nodes => exact hs.load nodes
  | register | setStorage | readVariable | begin | dropRun => exact hsame
  | setVariable name value =>
    simp only [act]
    split
    · rename_i h' hset
      rw [setVariable_library h h' name value hset]
      exact hsame
    · exact hsame
  | next limit =>
    simp only [act]
    split
    · exact hsame
    · rename_i run _
      obtain ⟨titles, hl⟩ := Run.next_consults limit h.stage run
      have hnext := hsame.consulted titles
      rw [← hl] at hnext
      exact hnext
  | select offer index =>
    simp only [act]
    split
    · rename_i h' hselect
      rw [select_library h h' offer index hselect]
      exact hsame
    · exact hsame

theorem after_shelved (history : List Action) :
    (after history).stage.library.Shelved (history.flatMap Action.loaded) := by
  have hrun : ∀ (h : Host) (loaded : List Node), h.stage.library.Shelved loaded →
      (history.foldl act h).stage.library.Shelved (loaded ++ history.flatMap Action.loaded) := by
    induction history with
    | nil =>
      intro h loaded hs
      rw [List.flatMap_nil, List.append_nil]
      exact hs
    | cons a history ih =>
      intro h loaded hs
      rw [List.flatMap_cons, ← List.append_assoc]
      exact ih (h.act a) _ (act_shelved hs a)
  exact hrun {} [] Library.shelved_empty

end Host

/-! ### Playing without kept parses -/

def Library.forget (l : Library) : Library := { l with parsed := {} }

def Stage.forget (g : Stage) : Stage := { g with library := g.library.forget }

def Host.forget (h : Host) : Host := { h with stage := h.stage.forget }

namespace Run

/-- Steps until one is not silent, and forgets all parses in front of each, so that every node
it enters is parsed anew. -/
def advanceAnew : (limit : Nat) → Stage → Run → Outcome
  | 0, g, r => (.silent, g, r)
  | limit + 1, g, r =>
    match step g.forget r with
    | (.silent, g, r) => advanceAnew limit g r
    | outcome => outcome

def nextAnew (limit : Nat) (g : Stage) (r : Run) : Answer × Stage × Run :=
  if r.done then (.finished, g, r) else report (advanceAnew limit g r)

end Run

namespace Host

section

variable (next : Nat → Stage → Run → Run.Answer × Stage × Run)

/-- The host behind an action, if its runs go on by `next`. -/
def actBy (h : Host) : Action → Host
  | .next limit =>
    match h.run with
    | none => h
    | some run =>
      match next limit h.stage run with
      | (_, stage, run) => { h with stage := stage, run := some run }.collect
  | a => h.act a

def replyBy (h : Host) : Action → Option Reply
  | .next limit => h.run.map fun run => .answer (next limit h.stage run).1
  | .select offer index =>
    match h.select offer index with
    | .ok _ => some .selected
    | .error (.run e) => some (.refused e)
    | .error _ => some .unknown
  | _ => none

def repliesBy (h : Host) : List Action → List (Option Reply)
  | [] => []
  | a :: history => h.replyBy next a :: (h.actBy next a).repliesBy history

end

theorem actBy_next (h : Host) (a : Action) : h.actBy Run.next a = h.act a := by
  cases a with
  | load | register | setStorage | setVariable | readVariable | begin | dropRun | select => rfl
  | next limit =>
    cases hrun : h.run <;> simp only [actBy, act, hrun]

end Host

theorem Library.coherent_forget (l : Library) : l.forget.Coherent := by
  intro title statements h
  cases h

theorem Library.consulted_nodes (l : Library) (titles : List String) :
    (l.consulted titles).nodes = l.nodes := by
  unfold consulted
  induction titles generalizing l with
  | nil => rfl
  | cons title titles ih => rw [List.foldl_cons, ih, statements_nodes]

theorem Library.Coherent.exists_node {l : Library} (h : l.Coherent) {title : String}
    {statements : List Statement} (hkept : l.parsed.get? title = some statements) :
    ∃ node, l.node? title = some node ∧ Statement.ofBody node.body.toList = .ok statements := by
  have hbody := h title statements hkept
  unfold parsedBody at hbody
  split at hbody
  · cases hbody
  · rename_i node hnode
    refine ⟨node, hnode, ?_⟩
    split at hbody
    · cases hbody
    · rename_i found hparse
      rw [hparse, Except.ok.inj hbody]

structure Stage.Mirrors (g g' : Stage) : Prop where
  left : g.library.Coherent
  right : g'.library.Coherent
  same : g.forget = g'.forget

namespace Stage

variable {g g' : Stage}

theorem Mirrors.twins (h : g.Mirrors g') : g.Twins id g' := by
  have hnodes : g.library.nodes = g'.library.nodes := congrArg (·.library.nodes) h.same
  have hoffers : g.offers = g'.offers := congrArg (·.offers) h.same
  refine ⟨⟨h.left, h.right, fun title => ?_⟩, congrArg (·.session) h.same, ?_⟩
  · rw [hnodes]
  · rw [hoffers]

theorem Mirrors.forget (h : g.Mirrors g') : g.Mirrors g'.forget :=
  ⟨h.left, g'.library.coherent_forget, h.same⟩

end Stage

namespace Run

variable {g g' : Stage}

theorem step_mirrors (h : g.Mirrors g') (r : Run) :
    (step g r).1 = (step g' r).1 ∧ (step g r).2.2 = (step g' r).2.2 ∧
      (step g r).2.1.Mirrors (step g' r).2.1 := by
  obtain ⟨hprogress, hstage, hrun⟩ := step_twins h.twins (rfl : r.mapLines id = r.mapLines id)
  rw [Progress.mapLines_id, Progress.mapLines_id] at hprogress
  rw [Run.mapLines_id, Run.mapLines_id] at hrun
  refine ⟨hprogress, hrun, hstage.library.left, hstage.library.right, ?_⟩
  have hnodes : (step g r).2.1.library.nodes = (step g' r).2.1.library.nodes := by
    obtain ⟨titles, hl⟩ := step_consults g r
    obtain ⟨titles', hl'⟩ := step_consults g' r
    rw [hl, hl', Library.consulted_nodes, Library.consulted_nodes]
    exact congrArg (·.library.nodes) h.same
  have hoffers := hstage.offers
  rw [Offer.mapLines_id, List.map_id, List.map_id] at hoffers
  rw [Stage.forget, Stage.forget, Library.forget, Library.forget, hnodes, hoffers, hstage.session]

theorem advance_mirrors (h : g.Mirrors g') (r : Run) (limit : Nat) :
    (advance limit g r).1 = (advanceAnew limit g' r).1 ∧
      (advance limit g r).2.2 = (advanceAnew limit g' r).2.2 ∧
      (advance limit g r).2.1.Mirrors (advanceAnew limit g' r).2.1 := by
  induction limit generalizing g g' r with
  | zero => exact ⟨rfl, rfl, h⟩
  | succ limit ih =>
    have hs := step_mirrors h.forget r
    unfold advance advanceAnew
    generalize step g r = o at hs
    generalize step g'.forget r = o' at hs
    obtain ⟨progress, stage, run⟩ := o
    obtain ⟨progress', stage', run'⟩ := o'
    obtain ⟨hprogress, hrun, hstage⟩ := hs
    simp only at hprogress hrun
    subst hprogress hrun
    cases progress with
    | silent => exact ih hstage run
    | cue | ended | waiting | failed => exact ⟨rfl, rfl, hstage⟩

theorem next_mirrors (h : g.Mirrors g') (r : Run) (limit : Nat) :
    (next limit g r).1 = (nextAnew limit g' r).1 ∧
      (next limit g r).2.2 = (nextAnew limit g' r).2.2 ∧
      (next limit g r).2.1.Mirrors (nextAnew limit g' r).2.1 := by
  unfold nextAnew
  cases hd : r.done with
  | true =>
    rw [next_of_done hd]
    exact ⟨rfl, rfl, h⟩
  | false =>
    rw [next_of_not_done hd]
    obtain ⟨hprogress, hrun, hstage⟩ := advance_mirrors h r limit
    exact report_congr hprogress hrun hstage

end Run

theorem Library.forget_load {l l' : Library} (h : l.forget = l'.forget) (nodes : List Node) :
    (l.load nodes).forget = (l'.load nodes).forget := by
  unfold Library.load
  induction nodes generalizing l l' with
  | nil => exact h
  | cons node nodes ih =>
    refine ih ?_
    have hnodes : l.nodes = l'.nodes := congrArg (·.nodes) h
    unfold loadNode
    rw [hnodes]
    split
    · exact h
    · rfl

namespace Host

structure Mirrors (h h' : Host) : Prop where
  left : h.stage.library.Coherent
  right : h'.stage.library.Coherent
  same : h.forget = h'.forget

variable {h h' : Host}

theorem Mirrors.stage (hm : h.Mirrors h') : h.stage.Mirrors h'.stage :=
  ⟨hm.left, hm.right, congrArg Host.stage hm.same⟩

theorem Mirrors.exists_parsed (hm : h.Mirrors h') : ∃ parsed, h' = { h with
    stage := { h.stage with library := { h.stage.library with parsed := parsed } } } := by
  obtain ⟨⟨⟨nodes, parsed⟩, session, offers⟩, run, storage, accesses, calls⟩ := h
  obtain ⟨⟨⟨nodes', parsed'⟩, session', offers'⟩, run', storage', accesses', calls'⟩ := h'
  have hsame := hm.same
  simp only [forget, Stage.forget, Library.forget, mk.injEq, Stage.mk.injEq,
    Library.mk.injEq] at hsame
  obtain ⟨⟨⟨rfl, -⟩, rfl, rfl⟩, rfl, rfl, rfl, rfl⟩ := hsame
  exact ⟨parsed', rfl⟩

theorem forget_act (hm : h.Mirrors h') (a : Action) (hnext : ∀ limit, a ≠ .next limit) :
    (h.act a).forget = (h'.act a).forget := by
  have hsame := hm.same
  obtain ⟨parsed, rfl⟩ := hm.exists_parsed
  cases a with
  | load nodes =>
    have hlibrary := Library.forget_load (congrArg (·.stage.library) hsame) nodes
    exact congrArg (fun l : Library => ({ h.dropRun with stage := { h.stage with library := l } } :
      Host)) hlibrary
  | register | setStorage | readVariable | begin | dropRun => rfl
  | setVariable name value =>
    simp only [act, setVariable, visibleStore]
    by_cases hk : h.storage = .memory
    · rw [if_pos hk]
      exact hsame
    · rw [if_neg hk]
      rfl
  | next limit => exact absurd rfl (hnext limit)
  | select offer index =>
    simp only [act, select, Stage.select, offerNumber]
    cases h.stage.offers[offer.getD (h.stage.offers.length - 1)]? with
    | none => exact hsame
    | some o =>
      simp only [Option.map_some]
      cases o.select index with
      | error e => exact hsame
      | ok o => rfl

theorem forget_collect (h : Host) : h.collect.forget = h.forget.collect := rfl

theorem Mirrors.next (hm : h.Mirrors h') (limit : Nat) :
    h.replyBy Run.next (.next limit) = h'.replyBy Run.nextAnew (.next limit) ∧
      (h.actBy Run.next (.next limit)).Mirrors (h'.actBy Run.nextAnew (.next limit)) := by
  have hrun : h.run = h'.run := congrArg (·.run) hm.same
  simp only [replyBy, actBy]
  rw [← hrun]
  cases h.run with
  | none => exact ⟨rfl, hm⟩
  | some run =>
    obtain ⟨hanswer, hrest, hstage⟩ := Run.next_mirrors hm.stage run limit
    simp only [Option.map_some]
    generalize Run.next limit h.stage run = result at hanswer hrest hstage
    generalize Run.nextAnew limit h'.stage run = result' at hanswer hrest hstage
    obtain ⟨answer, stage, run⟩ := result
    obtain ⟨answer', stage', run'⟩ := result'
    simp only at hanswer hrest hstage
    subst hanswer hrest
    refine ⟨rfl, hstage.left, hstage.right, ?_⟩
    rw [forget_collect, forget_collect]
    obtain ⟨parsed, rfl⟩ := hm.exists_parsed
    exact congrArg (fun g : Stage => ({ h with stage := g, run := some run } : Host).collect)
      hstage.same

theorem Mirrors.select (hm : h.Mirrors h') (offer : Option Nat) (index : Nat) :
    h.replyBy Run.next (.select offer index) = h'.replyBy Run.nextAnew (.select offer index) := by
  obtain ⟨parsed, rfl⟩ := hm.exists_parsed
  simp only [replyBy, Host.select, Stage.select, offerNumber]
  cases h.stage.offers[offer.getD (h.stage.offers.length - 1)]? with
  | none => rfl
  | some o =>
    simp only [Option.map_some]
    cases o.select index <;> rfl

/-- Whatever a host does, it is told the same without kept parses. -/
theorem Mirrors.act (hm : h.Mirrors h') (a : Action) :
    h.replyBy Run.next a = h'.replyBy Run.nextAnew a ∧
      (h.actBy Run.next a).Mirrors (h'.actBy Run.nextAnew a) := by
  have hact : (∀ limit, a ≠ .next limit) → (h.act a).Mirrors (h'.act a) :=
    fun hnext => ⟨act_coherent h a hm.left, act_coherent h' a hm.right, forget_act hm a hnext⟩
  cases a with
  | next limit => exact hm.next limit
  | select offer index => exact ⟨hm.select offer index, hact (by simp)⟩
  | load | register | setStorage | setVariable | readVariable | begin | dropRun =>
    exact ⟨rfl, hact (by simp)⟩

theorem Mirrors.history (hm : h.Mirrors h') (history : List Action) :
    h.repliesBy Run.next history = h'.repliesBy Run.nextAnew history ∧
      (history.foldl Host.act h).Mirrors (history.foldl (actBy Run.nextAnew) h') := by
  induction history generalizing h h' with
  | nil => exact ⟨rfl, hm⟩
  | cons a history ih =>
    obtain ⟨hreply, hact⟩ := hm.act a
    obtain ⟨hreplies, hrest⟩ := ih hact
    rw [actBy_next] at hrest
    refine ⟨?_, hrest⟩
    rw [repliesBy, repliesBy, hreply, hreplies]

/-- Behind any history of loads, runs and steps: a title stands for the node that was loaded last
under it; the titles are those of all loaded nodes, in order and each of them once; what is kept
under a title is the parse of the body that stands there now; and all replies, and all but the kept
parses themselves, are those of a machine that keeps nothing and parses the body of each node it
enters. -/
theorem kept_parses_unnoticed (history : List Action) :
    let l := (after history).stage.library
    let loaded := history.flatMap Action.loaded
    (∀ title, l.node? title = loaded.reverse.find? fun node => node.title = title) ∧
    l.titles.Pairwise (· < ·) ∧
    (∀ title, title ∈ l.titles ↔ ∃ node ∈ loaded, node.title = title) ∧
    (∀ title statements, (title, statements) ∈ l.parsed.entries →
      ∃ node, l.node? title = some node ∧ Statement.ofBody node.body.toList = .ok statements) ∧
    repliesBy Run.next {} history = repliesBy Run.nextAnew {} history ∧
    (history.foldl (actBy Run.nextAnew) {}).forget = (after history).forget := by
  intro l loaded
  have hs : l.Shelved loaded := after_shelved history
  have hempty : Mirrors {} {} := ⟨Library.coherent_empty, Library.coherent_empty, rfl⟩
  obtain ⟨hreplies, hmirrors⟩ := hempty.history history
  refine ⟨hs.nodes, Table.sortedNames_pairwise hs.distinct, fun title => ?_,
    fun title statements hkept => ?_, hreplies, hmirrors.same.symm⟩
  · unfold Library.titles
    rw [Table.mem_sortedNames, hs.nodes, List.find?_isSome]
    simp
  · exact hs.coherent.exists_node (Table.get?_of_mem hs.parsed hkept)

end Host

end Dialogue
