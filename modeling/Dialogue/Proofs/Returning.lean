import Dialogue.Proofs.Entrances

/-!
# Calls that return

Only a link is followed without asking the host, so a call can go on for ever only if
links lead round in circles. Where they lead down instead (`Library.Descends`), every
node has a price that covers what its body can cost in silent steps
(`Library.Descends.fair`), and what a run still has to pay for the statements of its
frames and the choices that wait in them gets less with every silent step
(`Run.step_pays`). What happens at an offer does not matter to that: options may lead
anywhere, and the frames may pile up from one call to the next.
-/

namespace Dialogue

namespace Statement

mutual

/-- The destinations of the links in a statement, at every depth. -/
def links : Statement → List String
  | .link _ destination => [destination]
  | .shortcut _ _ _ body => blockLinks body
  | .conditional _ branches => branchesLinks branches
  | _ => []

def blockLinks : List Statement → List String
  | [] => []
  | s :: ss => s.links ++ blockLinks ss

def branchesLinks : List Branch → List String
  | [] => []
  | .mk _ _ body :: branches => blockLinks body ++ branchesLinks branches

end

end Statement

/-- The rank gets less along every link from a node whose body parses to one that is loaded. -/
def Library.Descends (l : Library) (rank : String → Nat) : Prop :=
  ∀ title body destination, parsedBody l.nodes title = .ok body →
    destination ∈ Statement.blockLinks body → (l.node? destination).isSome →
    rank destination < rank title

/-! ### Tolls -/

section

variable (price : String → Nat)

namespace Statement

mutual

/-- What a statement can cost in silent steps, given what the nodes cost that links lead to. What
is behind an offer is paid for when the offer has been answered. -/
def toll : Statement → Nat
  | .link _ destination => price destination + 2
  | .conditional _ branches => branchesToll branches + 1
  | _ => 1

def blockToll : List Statement → Nat
  | [] => 0
  | s :: ss => s.toll + blockToll ss

def branchesToll : List Branch → Nat
  | [] => 0
  | .mk _ _ body :: branches => blockToll body + 1 + branchesToll branches

end

theorem toll_pos (s : Statement) : 0 < s.toll price := by
  cases s <;> simp [toll]

end Statement

def Choice.toll : Choice → Nat
  | .link _ destination => price destination + 1
  | _ => 0

def Frame.toll (f : Frame) : Nat :=
  Statement.blockToll price f.rest + (f.choices.map (Choice.toll price)).sum + 1

def Run.toll (r : Run) : Nat := (r.frames.map (Frame.toll price)).sum

/-- A node costs as much as the statements of its body, and one step to leave it. -/
def Library.Fair (l : Library) : Prop :=
  ∀ title body, parsedBody l.nodes title = .ok body →
    Statement.blockToll price body + 1 ≤ price title

end

namespace Statement

variable {price price' : String → Nat}

mutual

theorem toll_congr : ∀ s : Statement, (∀ d ∈ s.links, price d = price' d) →
    s.toll price = s.toll price'
  | .link _ destination, h => by
    rw [toll, toll, h destination (by simp [links])]
  | .conditional _ branches, h => by
    rw [toll, toll, branchesToll_congr branches h]
  | .text .., _ => rfl
  | .option .., _ => rfl
  | .shortcut .., _ => rfl
  | .assignment .., _ => rfl
  | .command .., _ => rfl

theorem blockToll_congr : ∀ ss : List Statement, (∀ d ∈ blockLinks ss, price d = price' d) →
    blockToll price ss = blockToll price' ss
  | [], _ => rfl
  | s :: ss, h => by
    rw [blockToll, blockToll, toll_congr s fun d hd => h d (List.mem_append_left _ hd),
      blockToll_congr ss fun d hd => h d (List.mem_append_right _ hd)]

theorem branchesToll_congr : ∀ branches : List Branch,
    (∀ d ∈ branchesLinks branches, price d = price' d) →
    branchesToll price branches = branchesToll price' branches
  | [], _ => rfl
  | .mk _ _ body :: branches, h => by
    rw [branchesToll, branchesToll, blockToll_congr body fun d hd => h d (List.mem_append_left _ hd),
      branchesToll_congr branches fun d hd => h d (List.mem_append_right _ hd)]

end

end Statement

namespace Library

/-- The price of a node if links are followed down to some depth and cost nothing below it. -/
def priceAt (nodes : Table Node) : (depth : Nat) → String → Nat
  | 0, _ => 0
  | depth + 1, title =>
    match parsedBody nodes title with
    | .ok body => Statement.blockToll (priceAt nodes depth) body + 1
    | .error _ => 0

theorem priceAt_of_not_loaded {l : Library} {title : String} (h : ¬(l.node? title).isSome)
    (depth : Nat) : priceAt l.nodes depth title = 0 := by
  have hn : l.nodes.get? title = none := by simpa [node?] using h
  cases depth with
  | zero => rfl
  | succ depth => simp [priceAt, parsedBody, hn]

theorem Descends.priceAt_eq {l : Library} {rank : String → Nat} (h : l.Descends rank)
    (m n : Nat) (title : String) (hm : rank title < m) (hn : rank title < n) :
    priceAt l.nodes m title = priceAt l.nodes n title := by
  induction m generalizing n title with
  | zero => omega
  | succ m ih =>
    obtain ⟨n, rfl⟩ : ∃ k, n = k + 1 := ⟨n - 1, by omega⟩
    rw [priceAt, priceAt]
    cases hb : parsedBody l.nodes title with
    | error e => rfl
    | ok body =>
      have hlinks : ∀ d ∈ Statement.blockLinks body,
          priceAt l.nodes m d = priceAt l.nodes n d := by
        intro d hd
        by_cases hloaded : (l.node? d).isSome
        · have hrank := h title body d hb hd hloaded
          exact ih n d (by omega) (by omega)
        · rw [priceAt_of_not_loaded hloaded, priceAt_of_not_loaded hloaded]
      simp only [Statement.blockToll_congr body hlinks]

theorem Descends.fair {l : Library} {rank : String → Nat} (h : l.Descends rank) :
    l.Fair fun title => priceAt l.nodes (rank title + 1) title := by
  intro title body hb
  have hlinks : ∀ d ∈ Statement.blockLinks body,
      priceAt l.nodes (rank d + 1) d = priceAt l.nodes (rank title) d := by
    intro d hd
    by_cases hloaded : (l.node? d).isSome
    · exact h.priceAt_eq _ _ d (by omega) (h title body d hb hd hloaded)
    · rw [priceAt_of_not_loaded hloaded, priceAt_of_not_loaded hloaded]
  have hprice : priceAt l.nodes (rank title + 1) title =
      Statement.blockToll (priceAt l.nodes (rank title)) body + 1 := by
    simp only [priceAt, hb]
  rw [Statement.blockToll_congr body hlinks]
  exact hprice.ge

end Library

namespace Run

variable {price : String → Nat} {g : Stage} {r : Run}

theorem toll_cons (frame : Frame) (below : List Frame) (r : Run) :
    ({ r with frames := frame :: below } : Run).toll price =
      frame.toll price + ({ r with frames := below } : Run).toll price := by
  simp [toll]

theorem Playing.toll {frame : Frame} {below : List Frame} (h : r.Playing frame below) :
    r.toll price = frame.toll price + ({ r with frames := below } : Run).toll price := by
  simp [Run.toll, h.frames]

/-- The run goes on between two offers, with less to pay than the total. -/
structure Pays (price : String → Nat) (total : Nat) (outcome : Outcome) : Prop where
  start : outcome.2.2.start = none
  pending : outcome.2.2.pending = none
  toll : outcome.2.2.toll price < total

theorem Pays.mono {total more : Nat} {outcome : Outcome} (h : Pays price total outcome)
    (hle : total ≤ more) : Pays price more outcome :=
  ⟨h.start, h.pending, by have := h.toll; omega⟩

theorem enterNode_pays (hc : g.library.Coherent) (hf : g.library.Fair price) {title : String}
    (hs : r.start = none) (hp : r.pending = none) (h : (enterNode g r title).1 = .silent) :
    Pays price (r.toll price + price title + 1) (enterNode g r title) := by
  obtain ⟨library, he⟩ := enterNode_eq hc r title
  rw [he] at h ⊢
  cases hb : Library.parsedBody g.library.nodes title with
  | error e =>
    rw [hb] at h
    cases h
  | ok body =>
    have hprice := hf title body hb
    refine ⟨hs, hp, ?_⟩
    simp only [Run.toll, Frame.toll, List.map_cons, List.sum_cons, List.map_nil, List.sum_nil]
    omega

theorem enterBlock_pays (hs : r.start = none) (hp : r.pending = none) (body : List Statement)
    (g : Stage) {total : Nat} (h : body = [] ∨ Statement.blockToll price body + 1 ≤ total) :
    Pays price (r.toll price + total + 1) (.silent, g, r.enterBlock body) := by
  have hopens := enterBlock_opens g r body
  refine ⟨hopens.start.trans hs, hopens.pending.trans hp, ?_⟩
  unfold enterBlock
  cases body with
  | nil =>
    simp only [List.isEmpty_nil, if_true]
    omega
  | cons s ss =>
    have htotal : Statement.blockToll price (s :: ss) + 1 ≤ total := by simpa using h
    simp only [List.isEmpty_cons, Bool.false_eq_true, if_false, Run.toll, Frame.toll, List.map_cons,
      List.sum_cons, List.map_nil, List.sum_nil]
    omega

/-- Choices that are presented in silence are none at all, or a link that stands alone. -/
theorem present_pays (hc : g.library.Coherent) (hf : g.library.Fair price) {choices : List Choice}
    {total : Nat} (hs : r.start = none) (hp : r.pending = none)
    (htotal : r.toll price + (choices.map (Choice.toll price)).sum < total ∨
      choices ≠ [] ∧ r.toll price + (choices.map (Choice.toll price)).sum ≤ total)
    (h : (present g r choices).1 = .silent) : Pays price total (present g r choices) := by
  unfold present at h ⊢
  split at h
  · refine ⟨hs, hp, ?_⟩
    simpa using htotal
  · rename_i line destination
    refine (enterNode_pays hc hf hs hp h).mono ?_
    simp only [List.map_cons, List.map_nil, List.sum_cons, List.sum_nil, Choice.toll] at htotal
    omega
  · cases h

theorem chooseBranch_toll {branches : List Branch} {s : Session} {body : List Statement}
    (h : (chooseBranch s branches).1 = .ok body) :
    body = [] ∨ Statement.blockToll price body + 1 ≤ Statement.branchesToll price branches := by
  induction branches generalizing s with
  | nil =>
    cases h
    exact Or.inl rfl
  | cons branch branches ih =>
    obtain ⟨line, condition, block⟩ := branch
    unfold chooseBranch at h
    rw [Statement.branchesToll]
    split at h
    · cases h
    · cases h
      exact Or.inr (Nat.le_add_right _ _)
    · rcases ih h with hn | hle
      · exact Or.inl hn
      · exact Or.inr (by omega)

theorem execute_pays (hs : r.start = none) (hp : r.pending = none) (s : Statement)
    (h : (execute g r s).1 = .silent) :
    Pays price (r.toll price + s.toll price) (execute g r s) := by
  have hstays : ∀ g' : Stage, Pays price (r.toll price + s.toll price) (.silent, g', r) :=
    fun g' => ⟨hs, hp, Nat.lt_add_of_pos_right (s.toll_pos price)⟩
  cases s with
  | text line content => cases h
  | command line content =>
    simp only [execute] at h ⊢
    split at h
    · rename_i hstop
      rw [if_pos hstop]
      exact ⟨hs, hp, Nat.add_pos_right _ (Statement.toll_pos price _)⟩
    · cases h
  | assignment line target op value =>
    simp only [execute] at h ⊢
    split at h
    · cases h
    · exact hstays _
  | conditional line branches =>
    simp only [execute] at h ⊢
    split at h
    · cases h
    · rename_i body session hb
      exact enterBlock_pays hs hp body _ (chooseBranch_toll (by rw [hb]))
  | link | option | shortcut => exact hstays g

theorem choice?_toll (price : String → Nat) {s : Statement} {choice : Choice} {condition : Option Expr}
    (h : s.choice? = some (choice, condition)) : choice.toll price < s.toll price := by
  cases s with
  | link | option | shortcut =>
    cases h
    simp [Choice.toll, Statement.toll]
  | text | conditional | assignment | command => cases h

/-- A silent step between two offers pays. -/
theorem step_pays (hc : g.library.Coherent) (hf : g.library.Fair price) (hs : r.start = none)
    (hp : r.pending = none) (h : (step g r).1 = .silent) :
    Pays price (r.toll price) (step g r) := by
  have hm := step_move g r
  generalize step g r = outcome at hm h ⊢
  cases hm with
  | enter title start =>
    rw [hs] at start
    cases start
  | wait | finish | stray | fail => cases h
  | resume p index choice start pending =>
    rw [hp] at pending
    cases pending
  | leave frame below playing rest choices =>
    refine ⟨hs, hp, ?_⟩
    rw [playing.toll]
    simp only [Frame.toll]
    omega
  | flush frame below playing choices plain =>
    refine present_pays hc hf hs hp (Or.inr ⟨choices, ?_⟩) h
    rw [playing.toll, toll_cons]
    simp only [Frame.toll, List.map_nil, List.sum_nil]
    omega
  | execute frame below s rest playing here choices plain =>
    refine (execute_pays (r := { r with frames := { frame with rest := rest } :: below }) hs hp s
      h).mono ?_
    rw [playing.toll, toll_cons]
    simp only [Frame.toll, here, Statement.blockToll]
    omega
  | drop frame below s rest choice condition session playing here found holds =>
    have hpos := s.toll_pos price
    refine ⟨hs, hp, ?_⟩
    simp only [toll_cons]
    rw [playing.toll]
    simp only [Frame.toll, here, Statement.blockToll]
    omega
  | gather frame below s rest choice condition session playing here found holds accepts =>
    have hless := choice?_toll price found
    refine ⟨hs, hp, ?_⟩
    simp only [toll_cons]
    rw [playing.toll]
    simp only [Frame.toll, here, Statement.blockToll, List.map_append, List.sum_append,
      List.map_cons, List.map_nil, List.sum_cons, List.sum_nil]
    omega
  | change frame below s rest choice condition session playing here found holds refuses =>
    have hless := choice?_toll price found
    refine present_pays (g := { g with session := session }) hc hf hs hp (Or.inl ?_) h
    rw [playing.toll, toll_cons]
    simp only [Frame.toll, here, Statement.blockToll, List.map_cons, List.map_nil, List.sum_cons,
      List.sum_nil]
    omega

/-! ### Returning -/

/-- From some limit on, the steps come to the same outcome, and are not silent all along. -/
def Returns (g : Stage) (r : Run) : Prop :=
  ∃ (bound : Nat) (outcome : Outcome), outcome.1 ≠ .silent ∧
    ∀ limit, bound ≤ limit → advance limit g r = outcome

theorem returns_of_step (h : (step g r).1 = .silent → Returns (step g r).2.1 (step g r).2.2) :
    Returns g r := by
  obtain ⟨progress, g', r', he⟩ : ∃ progress g' r', step g r = (progress, g', r') :=
    ⟨_, _, _, rfl⟩
  rw [he] at h
  cases progress with
  | silent =>
    obtain ⟨bound, outcome, hne, hall⟩ := h rfl
    refine ⟨bound + 1, outcome, hne, fun limit hle => ?_⟩
    obtain ⟨limit, rfl⟩ : ∃ k, limit = k + 1 := ⟨limit - 1, by omega⟩
    rw [advance, he]
    exact hall limit (by omega)
  | cue | ended | waiting | failed =>
    refine ⟨1, step g r, by simp [he], fun limit hle => ?_⟩
    obtain ⟨limit, rfl⟩ : ∃ k, limit = k + 1 := ⟨limit - 1, by omega⟩
    rw [advance, he]

theorem Keeps.fair {outcome : Outcome} (h : Keeps g r outcome) (hc : g.library.Coherent)
    (hf : g.library.Fair price) : outcome.2.1.library.Fair price := by
  rcases h.library with hl | ⟨title, hl⟩
  · rw [hl]
    exact hf
  · rw [hl]
    intro other body hb
    rw [(hc.statements title).2.1] at hb
    exact hf other body hb

/-- Between two offers the toll bounds the number of silent steps. -/
theorem returns_of_playing (hc : g.library.Coherent) (hf : g.library.Fair price)
    (hs : r.start = none) (hp : r.pending = none) : Returns g r := by
  generalize hn : r.toll price = n
  induction n using Nat.strong_induction_on generalizing g r with
  | _ n ih =>
    refine returns_of_step fun hsilent => ?_
    have hpays := step_pays hc hf hs hp hsilent
    have hkeeps := step_keeps g r
    exact ih _ (hn ▸ hpays.toll) (hkeeps.coherent hc) (hkeeps.fair hc hf) hpays.start
      hpays.pending rfl

theorem resume_silent {p : Pending} (h : (resume g r p).1 = .silent) :
    (resume g r p).2.2.start = r.start ∧ (resume g r p).2.2.pending = none := by
  unfold resume at h ⊢
  split at h
  · cases h
  · split at h
    · cases h
    · rename_i choice _
      have hopens := follow_opens g { r with pending := none } choice
      exact ⟨hopens.start, hopens.pending⟩

theorem returns_of_start (hc : g.library.Coherent) (hf : g.library.Fair price)
    (hs : r.start = none) : Returns g r := by
  cases hp : r.pending with
  | none => exact returns_of_playing hc hf hs hp
  | some p =>
    refine returns_of_step fun hsilent => ?_
    have hkeeps := step_keeps g r
    have hstep : step g r = resume g r p := by simp [step, hs, hp]
    rw [hstep] at hsilent hkeeps ⊢
    obtain ⟨hstart, hpending⟩ := resume_silent hsilent
    exact returns_of_playing (hkeeps.coherent hc) (hkeeps.fair hc hf) (hstart.trans hs) hpending

theorem returns_of_fair (hc : g.library.Coherent) (hf : g.library.Fair price) (r : Run) :
    Returns g r := by
  cases hs : r.start with
  | none => exact returns_of_start hc hf hs
  | some title =>
    refine returns_of_step fun _ => ?_
    have hkeeps := step_keeps g r
    have hopens := enterNode_opens g { r with start := none } title
    have hstep : step g r = enterNode g { r with start := none } title := by simp [step, hs]
    rw [hstep] at hkeeps ⊢
    exact returns_of_start (hkeeps.coherent hc) (hkeeps.fair hc hf) hopens.start

end Run

namespace Host

/-- Behind every history that leaves links leading down between the loaded nodes, every run comes
back to the host when asked to go on: from some limit on, the limit is not reached and makes no
difference. Nothing is asked of where options lead, nor of what has piled up in the run before. -/
theorem next_returns (history : List Action) (rank : String → Nat)
    (hrank : (after history).stage.library.Descends rank) (run : Run) :
    ∃ (bound : Nat) (result : Run.Answer × Stage × Run), result.1 ≠ .unsettled ∧
      ∀ limit, bound ≤ limit → run.next limit (after history).stage = result := by
  obtain ⟨bound, outcome, hne, hall⟩ :=
    Run.returns_of_fair (after_coherent history) hrank.fair run
  cases hd : run.done with
  | true => exact ⟨0, (.finished, (after history).stage, run), nofun, fun _ _ => Run.next_of_done hd⟩
  | false =>
    refine ⟨bound, Run.report outcome, ?_, fun limit hle => ?_⟩
    · obtain ⟨progress, stage, run'⟩ := outcome
      cases progress with
      | silent => exact absurd rfl hne
      | cue | ended | waiting | failed => nofun
    · rw [Run.next_of_not_done hd, hall limit hle]

/-! A hub with an option that leads back to it, and a way out along a link. A host that goes round
it leaves one more frame open with every lap. -/

def ways : List Choice := [.option 1 "Round" "Hub", .option 2 "Out" "Gate"]

def hubBody : List Statement := [.option 1 "Round" "Hub" none, .option 2 "Out" "Gate" none]

def hubNodes : List Node :=
  [⟨"Hub", "[[Round|Hub]]\n[[Out|Gate]]", ""⟩, ⟨"Gate", "[[Road]]", ""⟩, ⟨"Road", "Dust", ""⟩]

def hubLibrary : Library :=
  { nodes := ⟨hubNodes.map fun node => (node.title, node)⟩, parsed := ⟨[("Hub", hubBody)]⟩ }

def hubRank (title : String) : Nat := if title = "Gate" then 1 else 0

theorem hub_bodies {title : String} {body : List Statement}
    (h : Library.parsedBody hubLibrary.nodes title = .ok body) :
    (title = "Hub" ∧ body = hubBody) ∨ (title = "Gate" ∧ body = [.link 1 "Road"]) ∨
      title = "Road" ∧ body = [.text 1 "Dust"] := by
  by_cases hhub : title = "Hub"
  · subst hhub
    have hb : Library.parsedBody hubLibrary.nodes "Hub" = .ok hubBody := by cbv
    exact Or.inl ⟨rfl, Except.ok.inj (h.symm.trans hb)⟩
  by_cases hgate : title = "Gate"
  · subst hgate
    have hb : Library.parsedBody hubLibrary.nodes "Gate" = .ok [.link 1 "Road"] := by cbv
    exact Or.inr (Or.inl ⟨rfl, Except.ok.inj (h.symm.trans hb)⟩)
  by_cases hroad : title = "Road"
  · subst hroad
    have hb : Library.parsedBody hubLibrary.nodes "Road" = .ok [.text 1 "Dust"] := by cbv
    exact Or.inr (Or.inr ⟨rfl, Except.ok.inj (h.symm.trans hb)⟩)
  have hnone : hubLibrary.nodes.get? title = none := by
    rw [Table.get?, List.lookup_eq_none_iff]
    simp [hubLibrary, hubNodes, hhub, hgate, hroad]
  simp [Library.parsedBody, hnone] at h

theorem hub_descends : hubLibrary.Descends hubRank := by
  intro title body destination hb hd _
  obtain ⟨-, rfl⟩ | ⟨rfl, rfl⟩ | ⟨-, rfl⟩ := hub_bodies hb
  · cases hd
  · obtain rfl : destination = "Road" := by simpa [Statement.blockLinks, Statement.links] using hd
    decide
  · cases hd

def laps : Nat → List Action
  | 0 => [.load hubNodes, .begin "Hub", .next 9]
  | n + 1 => laps n ++ [.select none 0, .next 9]

def hubStage (offers : List Offer) : Stage :=
  { library := hubLibrary, session := { visited := ["Hub"] }, offers := offers }

def hubFrame (rest : List Statement) : Frame := { node := "Hub", rest := rest, endsNode := true }

def hubRun (frames : List Frame) (number : Nat) : Run :=
  { start := none, frames := frames, pending := some ⟨number, ways⟩ }

theorem hubRun_next (offers : List Offer) (frames : List Frame) (number : Nat)
    (h : (hubStage offers).selection number = some 0) :
    (hubRun frames number).next 9 (hubStage offers) =
      (.cue (.options offers.length (.ofChoices ways)), hubStage (offers ++ [.ofChoices ways]),
        hubRun (hubFrame [] :: frames) offers.length) := by
  have hstep : (hubRun frames number).step (hubStage offers) =
      (.silent, hubStage offers, { start := none, frames := hubFrame hubBody :: frames }) := by
    simp only [Run.step, hubRun, Run.resume, h]
    rfl
  simp only [Run.next, Run.advance, hstep]
  rfl

def lapped (n : Nat) (offers : List Offer) : Host :=
  { stage := hubStage offers, run := some (hubRun (List.replicate (n + 1) (hubFrame [])) n) }

def roundOffer : Offer := { Offer.ofChoices ways with selection := some 0 }

theorem after_laps (n : Nat) :
    after (laps n) = lapped n (List.replicate n roundOffer ++ [.ofChoices ways]) := by
  induction n with
  | zero => cbv
  | succ n ih =>
    have hselect : (lapped n (List.replicate n roundOffer ++ [.ofChoices ways])).act
        (.select none 0) = lapped n (List.replicate (n + 1) roundOffer) := by
      simp [act, select, Stage.select, offerNumber, lapped, hubStage, Offer.select,
        Offer.ofChoices, ways, roundOffer, List.replicate_succ']
    have hnext := hubRun_next (List.replicate (n + 1) roundOffer)
      (List.replicate (n + 1) (hubFrame [])) n (by simp [hubStage, Stage.selection, roundOffer])
    rw [after] at ih
    rw [after, laps, List.foldl_append, ih, List.foldl_cons, List.foldl_cons, List.foldl_nil,
      hselect]
    simp only [act, lapped, hnext]
    rw [List.length_replicate]
    rfl

/-- However often the host goes round the hub, and however many frames are open by then, the next
call returns. -/
theorem next_returns_hub : hubLibrary.Descends hubRank ∧ ∀ n, ∃ run,
    (after (laps n)).run = some run ∧ run.frames.length = n + 1 ∧
    ∃ (bound : Nat) (result : Run.Answer × Stage × Run), result.1 ≠ .unsettled ∧
      ∀ limit, bound ≤ limit → run.next limit (after (laps n)).stage = result := by
  refine ⟨hub_descends, fun n => ?_⟩
  have hafter := after_laps n
  refine ⟨hubRun (List.replicate (n + 1) (hubFrame [])) n, by rw [hafter]; rfl,
    List.length_replicate, next_returns (laps n) hubRank ?_ _⟩
  rw [hafter]
  exact hub_descends

end Host

end Dialogue
