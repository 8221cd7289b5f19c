import Dialogue.Proofs.Exchange

/-!
# Where offered options come from

A condition is looked at when its option comes up, but the option is presented later.
A trail keeps, beside a run and without a part in it, the condition of every choice
that waits or has been presented, and the session in which that condition held. Between
that session and the one in which the choice is presented nothing changes, unless the
choice itself had an earlier set of the other kind presented: then it came up ahead of
everything that set leads to (`Encounter.offers_hold`).
-/

namespace Dialogue

structure Gathered where
  choice : Choice
  condition : Option Expr
  session : Session
  /-- Whether choices of the other kind were waiting, and had to be presented first. -/
  ahead : Bool

/-- Where the choices of a run come from. -/
structure Trail where
  waiting : List (List Gathered) := []
  offered : List Gathered := []

namespace Trail

/-- A stack cut off, or filled up with nothing, to a height. -/
def resized (height : Nat) (stack : List (List Gathered)) : List (List Gathered) :=
  List.replicate (height - stack.length) [] ++ stack.drop (stack.length - height)

/-- What happens to the choices of the innermost frame in the next step. -/
def record (g : Stage) (r : Run) (t : Trail) : Trail :=
  match r.start, r.pending, r.frames, t.waiting with
  | none, none, frame :: _, top :: lower =>
    match frame.rest.head?.bind Statement.choice? with
    -- If anything waits here, it is presented before the frame goes on or is left.
    | none => ⟨[] :: lower, top⟩
    | some (choice, condition) =>
      match (g.session.holds condition).1, frame.accepts choice with
      | .ok true, true =>
        { t with waiting := (top ++ [⟨choice, condition, g.session, false⟩]) :: lower }
      | .ok true, false => ⟨[⟨choice, condition, g.session, true⟩] :: lower, top⟩
      | _, _ => t
  | _, _, _, _ => t

def fitted (t : Trail) (r : Run) : Trail :=
  { t with waiting := resized r.frames.length t.waiting }

def step (g : Stage) (r : Run) (t : Trail) : Trail := (t.record g r).fitted (Run.step g r).2.2

def advance : (limit : Nat) → Stage → Run → Trail → Trail
  | 0, _, _, t => t
  | limit + 1, g, r, t =>
    match Run.step g r with
    | (.silent, g', r') => advance limit g' r' (t.step g r)
    | _ => t.step g r

def call (e : Encounter) (t : Trail) : Call → Trail
  | .next limit => if e.run.done then t else t.advance limit e.stage e.run
  | _ => t

def along (e : Encounter) (t : Trail) : List Call → Trail
  | [] => t
  | c :: cs => along (e.call c).2 (t.call e c) cs

theorem resized_length (stack : List (List Gathered)) : resized stack.length stack = stack := by
  simp [resized]

theorem resized_succ (stack : List (List Gathered)) :
    resized (stack.length + 1) stack = [] :: stack := by
  simp [resized]

theorem resized_cons (batch : List Gathered) (stack : List (List Gathered)) :
    resized stack.length (batch :: stack) = stack := by
  simp [resized]

theorem resized_zero (stack : List (List Gathered)) : resized 0 stack = [] := by
  simp [resized]

/-! ### What a trail says -/

/-- Every condition held when it was looked at, and only the first choice can have come up
ahead. -/
structure Honest (batch : List Gathered) : Prop where
  held : ∀ x ∈ batch, (x.session.holds x.condition).1 = .ok true
  order : ∀ x ∈ batch.tail, x.ahead = false

theorem honest_nil : Honest [] := ⟨nofun, nofun⟩

theorem honest_singleton {x : Gathered} (h : (x.session.holds x.condition).1 = .ok true) :
    Honest [x] := by
  refine ⟨fun y hy => ?_, fun y hy => ?_⟩
  · rw [List.mem_singleton.1 hy]
    exact h
  · cases hy

theorem Honest.concat {batch : List Gathered} (h : Honest batch) {x : Gathered}
    (hx : (x.session.holds x.condition).1 = .ok true) (ha : x.ahead = false) :
    Honest (batch ++ [x]) := by
  refine ⟨fun y hy => ?_, fun y hy => ?_⟩
  · rcases List.mem_append.1 hy with hy | hy
    · exact h.held y hy
    · rw [List.mem_singleton.1 hy]
      exact hx
  · cases batch with
    | nil => cases hy
    | cons z batch =>
      rcases List.mem_append.1 hy with hy | hy
      · exact h.order y hy
      · rw [List.mem_singleton.1 hy]
        exact ha

def Ahead (batch : List Gathered) : Prop := ∀ x ∈ batch, x.ahead = true

/-- What has not come up ahead has come up in a session like this one. -/
def Current (s : Session) (batch : List Gathered) : Prop :=
  ∀ x ∈ batch, x.ahead = false → x.session.Alike s

theorem Ahead.current {batch : List Gathered} (h : Ahead batch) (s : Session) :
    Current s batch := by
  intro x hx hn
  rw [h x hx] at hn
  cases hn

theorem Current.alike {s s' : Session} {batch : List Gathered} (h : Current s batch)
    (ha : s.Alike s') : Current s' batch :=
  fun x hx hn => (h x hx hn).trans ha

/-- What waits in frames, with where it comes from. -/
structure Tells (frames : List Frame) (waiting : List (List Gathered)) : Prop where
  choices : waiting.map (·.map Gathered.choice) = frames.map Frame.choices
  honest : ∀ batch ∈ waiting, Honest batch

section Tells
variable {frame : Frame} {below frames : List Frame} {top : List Gathered}
  {lower waiting : List (List Gathered)}

theorem Tells.length (h : Tells frames waiting) : waiting.length = frames.length := by
  simpa using congrArg List.length h.choices

theorem Tells.cons (hc : top.map Gathered.choice = frame.choices) (hh : Honest top)
    (h : Tells below lower) : Tells (frame :: below) (top :: lower) := by
  refine ⟨by simp [hc, h.choices], fun batch hb => ?_⟩
  rcases List.mem_cons.1 hb with rfl | hb
  · exact hh
  · exact h.honest batch hb

theorem Tells.split (h : Tells (frame :: below) waiting) :
    ∃ top lower, waiting = top :: lower ∧ top.map Gathered.choice = frame.choices ∧
      Honest top ∧ Tells below lower := by
  obtain ⟨top, lower, rfl, hc, hl⟩ := List.map_eq_cons_iff.1 h.choices
  exact ⟨top, lower, rfl, hc, h.honest top List.mem_cons_self, hl,
    fun batch hb => h.honest batch (List.mem_cons_of_mem _ hb)⟩

end Tells

/-- Nothing that waits depends on the session any more. -/
def Settled (t : Trail) : Prop := ∀ batch ∈ t.waiting, Ahead batch

/-- The trail belongs to the run. -/
structure Follows (s : Session) (r : Run) (t : Trail) : Prop where
  start : ∀ title, r.start = some title → r.frames = [] ∧ r.pending = none
  tells : Tells r.frames t.waiting
  pending : ∀ p, r.pending = some p → t.offered.map Gathered.choice = p.choices
  top : ∀ batch ∈ t.waiting.head?, Current s batch
  lower : ∀ batch ∈ t.waiting.tail, Ahead batch
  resting : r.pending ≠ none → t.Settled

variable {g : Stage} {r : Run} {t : Trail} {s : Session}

theorem Settled.follows (ha : t.Settled) (ht : Tells r.frames t.waiting)
    (hs : ∀ title, r.start = some title → r.frames = [] ∧ r.pending = none)
    (hp : ∀ p, r.pending = some p → t.offered.map Gathered.choice = p.choices) :
    Follows s r t := by
  refine ⟨hs, ht, hp, fun batch hb => ?_, fun batch hb => ?_, fun _ => ha⟩
  · exact (ha batch (List.mem_of_mem_head? hb)).current s
  · exact ha batch (List.mem_of_mem_tail hb)

theorem Follows.elsewhere (h : Follows s r t) (ha : t.Settled) (s' : Session) : Follows s' r t :=
  ha.follows h.tells h.start h.pending

theorem Follows.fitted (h : Follows s r t) : t.fitted r = t := by
  rw [Trail.fitted, ← h.tells.length, resized_length]

theorem Follows.split {frame : Frame} {below : List Frame} (h : Follows s r t)
    (hp : r.Playing frame below) :
    ∃ top lower, t.waiting = top :: lower ∧ top.map Gathered.choice = frame.choices ∧
      Honest top ∧ Tells below lower ∧ Current s top ∧ ∀ batch ∈ lower, Ahead batch := by
  obtain ⟨top, lower, ht, hc, hh, hl⟩ := Tells.split (hp.frames ▸ h.tells)
  have htop := h.top
  have hlower := h.lower
  rw [ht] at htop hlower
  exact ⟨top, lower, ht, hc, hh, hl, htop top rfl, hlower⟩

/-! ### Steps -/

/-- A step and the trail behind it. -/
structure Advances (outcome : Outcome) (t : Trail) : Prop where
  follows : Follows outcome.2.1.session outcome.2.2 t
  told : outcome.1 ≠ .silent → t.Settled ∨ ∃ e, outcome.1 = .failed e
  presents : ∀ number offer, outcome.1 = .cue (.options number offer) →
    outcome.2.2.pending = some ⟨number, t.offered.map Gathered.choice⟩ ∧
      offer = .ofChoices (t.offered.map Gathered.choice) ∧
      Honest t.offered ∧ Current outcome.2.1.session t.offered

theorem Settled.advances {outcome : Outcome} (ha : t.Settled)
    (ht : Tells outcome.2.2.frames t.waiting) (hs : outcome.2.2.start = none)
    (hp : outcome.2.2.pending = none)
    (hn : ∀ number offer, outcome.1 ≠ .cue (.options number offer)) : Advances outcome t := by
  refine ⟨ha.follows ht ?_ ?_, fun _ => Or.inl ha, ?_⟩
  · simp [hs]
  · simp [hp]
  · exact fun number offer he => absurd he (hn number offer)

theorem opens_advances {outcome : Outcome} (h : Run.Opens g r outcome) (hs : r.start = none)
    (hp : r.pending = none) (ht : Tells r.frames t.waiting) (ha : t.Settled) :
    Advances outcome (t.fitted outcome.2.2) := by
  have key : Tells outcome.2.2.frames (t.fitted outcome.2.2).waiting ∧
      (t.fitted outcome.2.2).Settled := by
    unfold Settled fitted
    rcases h.frames with hf | hf | ⟨frame, hc, hf⟩
    · rw [hf, ← ht.length, resized_length]
      exact ⟨ht, ha⟩
    · rw [hf, List.length_nil, resized_zero]
      exact ⟨⟨rfl, nofun⟩, nofun⟩
    · rw [hf, List.length_cons, ← ht.length, resized_succ]
      refine ⟨ht.cons (by simp [hc]) honest_nil, fun batch hb => ?_⟩
      rcases List.mem_cons.1 hb with rfl | hb
      · exact nofun
      · exact ha batch hb
  exact key.2.advances key.1 (h.start.trans hs) (h.pending.trans hp) h.progress.2

theorem present_advances (hs : r.start = none) (hp : r.pending = none)
    (ht : Tells r.frames t.waiting) (ha : t.Settled) (hh : Honest t.offered)
    (hc : Current g.session t.offered) :
    Advances (Run.present g r (t.offered.map Gathered.choice))
      (t.fitted (Run.present g r (t.offered.map Gathered.choice)).2.2) := by
  rcases Run.present_cases g r (t.offered.map Gathered.choice) with ⟨hopens, _⟩ | ⟨_, he⟩
  · exact opens_advances hopens hs hp ht ha
  · rw [he, fitted, ← ht.length, resized_length]
    refine ⟨ha.follows ht ?_ ?_, fun _ => Or.inl ha, ?_⟩
    · simp [hs]
    · intro p hpend
      cases hpend
      rfl
    · intro number offer ho
      cases ho
      exact ⟨rfl, rfl, hh, hc⟩

theorem gathering_advances {progress : Progress} {session : Session} {frame : Frame}
    {below : List Frame} {top : List Gathered} {lower : List (List Gathered)}
    (hs : r.start = none) (hp : r.pending = none) (hw : t.waiting = top :: lower)
    (ht : Tells (frame :: below) (top :: lower)) (hc : Current session top)
    (ha : ∀ batch ∈ lower, Ahead batch)
    (hprogress : progress = .silent ∨ ∃ e, progress = .failed e) :
    Advances (progress, { g with session := session }, { r with frames := frame :: below })
      (t.fitted { r with frames := frame :: below }) := by
  rw [fitted, hw, ← ht.length, resized_length]
  refine ⟨⟨?_, ht, ?_, ?_, ha, ?_⟩, fun hn => ?_, ?_⟩
  · simp [hs]
  · simp [hp]
  · intro batch hb
    cases hb
    exact hc
  · simp [hp]
  · exact Or.inr (hprogress.resolve_left hn)
  · intro number offer he
    rcases hprogress with rfl | ⟨e, rfl⟩ <;> cases he

theorem ahead_cons {top : List Gathered} {lower : List (List Gathered)} {offered : List Gathered}
    (ht : Ahead top) (hl : ∀ batch ∈ lower, Ahead batch) : Settled ⟨top :: lower, offered⟩ := by
  intro batch hb
  rcases List.mem_cons.1 hb with rfl | hb
  · exact ht
  · exact hl batch hb

theorem record_plain {frame : Frame} {below : List Frame} {top : List Gathered}
    {lower : List (List Gathered)} (hp : r.Playing frame below) (hw : t.waiting = top :: lower)
    (hn : ∀ s ∈ frame.rest.head?, s.choice? = none) : t.record g r = ⟨[] :: lower, top⟩ := by
  have hnone : frame.rest.head?.bind Statement.choice? = none := by
    rw [Option.bind_eq_none_iff]
    exact hn
  simp [record, hp.start, hp.pending, hp.frames, hw, hnone]

theorem Follows.refused {frame : Frame} {below : List Frame} {s : Statement}
    {rest : List Statement} {choice : Choice} {condition : Option Expr}
    {result : Except RunError Bool} {session : Session} {progress : Progress}
    (h : Follows g.session r t) (hp : r.Playing frame below) (hr : frame.rest = s :: rest)
    (hf : s.choice? = some (choice, condition))
    (hh : g.session.holds condition = (result, session)) (hn : result ≠ .ok true)
    (hprogress : progress = .silent ∨ ∃ e, progress = .failed e) :
    Advances (progress, { g with session := session },
      { r with frames := { frame with rest := rest } :: below })
      ((t.record g r).fitted { r with frames := { frame with rest := rest } :: below }) := by
  obtain ⟨top, lower, ht, htop, hhonest, hlower, hc, hal⟩ := h.split hp
  have hrec : t.record g r = t := by
    simp [record, hp.start, hp.pending, hp.frames, ht, hr, hf, hh, hn]
  have hcur := hc.alike (g.session.holds_alike condition)
  rw [hh] at hcur
  have htells : Tells ({ frame with rest := rest } :: below) (top :: lower) :=
    hlower.cons htop hhonest
  rw [hrec]
  exact gathering_advances hp.start hp.pending ht htells hcur hal hprogress

/-- The trail stays with the run; what it says is settled whenever the host is told something, and
is true of what is presented. -/
theorem Follows.step (h : Follows g.session r t) : Advances (Run.step g r) (t.step g r) := by
  have hm := Run.step_move g r
  unfold Trail.step
  generalize Run.step g r = outcome at hm
  -- Only where the innermost frame takes a choice can the session matter to what waits.
  cases hm with
  | enter title start =>
    obtain ⟨hframes, hpending⟩ := h.start title start
    have hnil : t.waiting = [] := by simpa [hframes] using h.tells.choices
    have hrec : t.record g r = t := by simp [record, start]
    rw [hrec]
    have hopens := Run.enterNode_opens g { r with start := none } title
    exact opens_advances hopens rfl hpending h.tells (by simp [Settled, hnil])
  | wait p start pending selection =>
    have hrec : t.record g r = t := by simp [record, start, pending]
    have hset : t.Settled := h.resting (by simp [pending])
    rw [hrec, h.fitted]
    exact ⟨h, fun _ => Or.inl hset, by simp⟩
  | stray p index start pending selection choice =>
    have hrec : t.record g r = t := by simp [record, start, pending]
    rw [hrec, h.fitted]
    exact ⟨h, fun _ => Or.inr ⟨_, rfl⟩, by simp⟩
  | resume p index choice start pending selection found =>
    have hrec : t.record g r = t := by simp [record, start, pending]
    have hset : t.Settled := h.resting (by simp [pending])
    rw [hrec]
    have hopens := Run.follow_opens g { r with pending := none } choice
    exact opens_advances hopens start rfl h.tells hset
  | finish start pending frames =>
    have hrec : t.record g r = t := by simp [record, start, pending, frames]
    have hnil : t.waiting = [] := by simpa [frames] using h.tells.choices
    rw [hrec, h.fitted]
    exact ⟨h, fun _ => Or.inl (by simp [Settled, hnil]), by simp⟩
  | leave frame below playing rest choices =>
    obtain ⟨top, lower, ht, htop, hh, hlower, hc, hal⟩ := h.split playing
    rw [record_plain playing ht (by simp [rest]), Trail.fitted, ← hlower.length, resized_cons]
    have hset : Settled ⟨lower, top⟩ := hal
    refine hset.advances hlower playing.start playing.pending ?_
    split <;> simp
  | flush frame below playing choices plain =>
    obtain ⟨top, lower, ht, htop, hh, hlower, hc, hal⟩ := h.split playing
    rw [record_plain playing ht plain, ← htop]
    have hset : Settled ⟨[] :: lower, top⟩ := ahead_cons nofun hal
    exact present_advances (r := { r with frames := { frame with choices := [] } :: below })
      playing.start playing.pending (hlower.cons rfl honest_nil) hset hh hc
  | execute frame below s rest playing here choices plain =>
    obtain ⟨top, lower, ht, htop, hh, hlower, hc, hal⟩ := h.split playing
    rw [record_plain playing ht (by simpa [here] using plain)]
    exact opens_advances (Run.execute_opens g _ s) playing.start playing.pending
      (hlower.cons (by simp [choices]) honest_nil) (ahead_cons nofun hal)
  | fail frame below s rest choice condition e session playing here found holds =>
    exact h.refused playing here found holds (by simp) (Or.inr ⟨e, rfl⟩)
  | drop frame below s rest choice condition session playing here found holds =>
    exact h.refused playing here found holds (by simp) (Or.inl rfl)
  | gather frame below s rest choice condition session playing here found holds accepts =>
    obtain ⟨top, lower, ht, htop, hh, hlower, hc, hal⟩ := h.split playing
    have hrec : t.record g r =
        ⟨(top ++ [⟨choice, condition, g.session, false⟩]) :: lower, t.offered⟩ := by
      simp [record, playing.start, playing.pending, playing.frames, ht, here, found, holds, accepts]
    have halike := g.session.holds_alike condition
    rw [holds] at halike
    have htells : Tells
        ({ frame with rest := rest, choices := frame.choices ++ [choice] } :: below)
        ((top ++ [⟨choice, condition, g.session, false⟩]) :: lower) :=
      hlower.cons (by simp [htop]) (hh.concat (congrArg Prod.fst holds) rfl)
    rw [hrec]
    refine gathering_advances playing.start playing.pending rfl htells ?_ hal (Or.inl rfl)
    intro x hx hn
    rcases List.mem_append.1 hx with hx | hx
    · exact (hc x hx hn).trans halike
    · rw [List.mem_singleton.1 hx]
      exact halike
  | change frame below s rest choice condition session playing here found holds refuses =>
    -- What waited is presented now; the new choice stays behind, ahead of all it leads to.
    obtain ⟨top, lower, ht, htop, hh, hlower, hc, hal⟩ := h.split playing
    have hrec : t.record g r = ⟨[⟨choice, condition, g.session, true⟩] :: lower, top⟩ := by
      simp [record, playing.start, playing.pending, playing.frames, ht, here, found, holds, refuses]
    have hcur := hc.alike (g.session.holds_alike condition)
    rw [holds] at hcur
    rw [hrec, ← htop]
    have hset : Settled ⟨[⟨choice, condition, g.session, true⟩] :: lower, top⟩ :=
      ahead_cons (by simp [Ahead]) hal
    have hheld : Honest [⟨choice, condition, g.session, true⟩] :=
      honest_singleton (congrArg Prod.fst holds)
    exact present_advances (g := { g with session := session })
      (r := { r with frames := { frame with rest := rest, choices := [choice] } :: below })
      playing.start playing.pending (hlower.cons rfl hheld) hset hh hcur

theorem Follows.advance (h : Follows g.session r t) (limit : Nat) :
    Advances (Run.advance limit g r) (t.advance limit g r) := by
  induction limit generalizing g r t with
  | zero => exact ⟨h, fun hn => absurd rfl hn, by simp [Run.advance]⟩
  | succ limit ih =>
    have hs := h.step
    unfold Run.advance Trail.advance
    generalize Run.step g r = outcome at hs
    obtain ⟨progress, g', r'⟩ := outcome
    cases progress with
    | silent => exact ih hs.follows
    | cue | ended | waiting | failed => exact hs

/-- The trail between two calls, as long as the run goes on. -/
def Accompanies (e : Encounter) (t : Trail) : Prop :=
  e.run.done = true ∨ Follows e.stage.session e.run t ∧ t.Settled

theorem accompanies_opening (stage : Stage) (title : String) :
    Accompanies (.opening stage title) {} := by
  refine Or.inr ⟨Settled.follows nofun ⟨rfl, nofun⟩ ?_ nofun, nofun⟩
  exact fun _ _ => ⟨rfl, rfl⟩

/-- The trail stays with the run through every call that comes back. -/
theorem Accompanies.call {e : Encounter} (h : Accompanies e t) (c : Call)
    (hc : (e.call c).1 ≠ .answer .unsettled) : Accompanies (e.call c).2 (t.call e c) := by
  cases c with
  | select offer index =>
    rcases e.call_select offer index with ⟨o, _, _, _, he⟩ | ⟨_, he⟩
    · rw [he]
      exact h
    · rw [he]
      exact h
  | write name value =>
    rcases h with hd | ⟨hf, hs⟩
    · exact Or.inl hd
    · exact Or.inr ⟨hf.elsewhere hs _, hs⟩
  | next limit =>
    rw [Encounter.call_next] at hc ⊢
    rcases Bool.eq_false_or_eq_true e.run.done with hd | hd
    · rw [Run.next_of_done hd]
      exact Or.inl hd
    · obtain ⟨hf, hs⟩ := h.resolve_left (by simp [hd])
      have ha := hf.advance limit
      rw [Run.next_of_not_done hd] at hc ⊢
      simp only [Trail.call, hd, Bool.false_eq_true, if_false]
      generalize Run.advance limit e.stage e.run = outcome at ha hc
      obtain ⟨progress, g', r'⟩ := outcome
      cases progress with
      | silent => exact absurd rfl hc
      | ended => exact Or.inl rfl
      | failed err => exact Or.inl rfl
      | cue c => exact Or.inr ⟨ha.follows, (ha.told (by simp)).resolve_right (by simp)⟩
      | waiting => exact Or.inr ⟨ha.follows, (ha.told (by simp)).resolve_right (by simp)⟩

theorem Accompanies.along {e : Encounter} (h : Accompanies e t) (calls : List Call)
    (hc : ∀ entry ∈ e.transcript calls, entry.2 ≠ .answer .unsettled) :
    Accompanies (e.after calls) (along e t calls) := by
  induction calls generalizing e t with
  | nil => exact h
  | cons c calls ih =>
    have hfirst := h.call c (hc _ List.mem_cons_self)
    exact ih hfirst fun entry he => hc entry (List.mem_cons_of_mem _ he)

theorem along_concat (e : Encounter) (t : Trail) (calls : List Call) (c : Call) :
    along e t (calls ++ [c]) = (along e t calls).call (e.after calls) c := by
  induction calls generalizing e t with
  | nil => rfl
  | cons d calls ih => exact ih (e.call d).2 (t.call e d)

end Trail

namespace Encounter

def presented (stage : Stage) (title : String) (calls : List Call) : List Gathered :=
  (Trail.along (opening stage title) {} calls).offered

/-- To wait takes back the condition of the option behind it. -/
def crossroads : Stage := { library := ({} : Library).load [⟨"Start",
  "<<set $x = true>>\n-> Wait\n\t<<set $x = false>>\n[[Go|Dest]] <<if $x>>\n" ++
  "[[Stay|Dest]] <<if !$x>>", ""⟩] }

def detour : List Call := [.next 9, .select 0 0]

theorem crossroads_detour :
    let e := ((opening crossroads "Start").after detour).call (.next 9)
    (opening crossroads "Start").transcript detour =
      [(.next 9, .answer (.cue (.options 0 ⟨["Wait"], [2], none⟩))), (.select 0 0, .selected)] ∧
    e.1 = .answer (.cue (.options 1 ⟨["Go", "Stay"], [4, 5], none⟩)) ∧
    (presented crossroads "Start" (detour ++ [.next 9])).map (fun x => (x.condition, x.ahead)) =
      [(some (.var 4 "x"), true), (some (.unary 5 .not (.var 5 "x")), false)] ∧
    (e.2.stage.session.holds (some (.var 4 "x"))).1 = .ok false := by
  simp only [← Prod.mk.injEq]
  cbv

theorem crossroads_presented : ∃ go stay : Gathered,
    presented crossroads "Start" (detour ++ [.next 9]) = [go, stay] ∧
      go.condition = some (.var 4 "x") ∧ stay.condition = some (.unary 5 .not (.var 5 "x")) ∧
      stay.ahead = false := by
  obtain ⟨-, -, hfound, -⟩ := crossroads_detour
  obtain ⟨go, found, hgo, hfirst, hrest⟩ := List.map_eq_cons_iff.1 hfound
  obtain ⟨stay, found, rfl, hsecond, hnil⟩ := List.map_eq_cons_iff.1 hrest
  obtain rfl : found = [] := List.map_eq_nil_iff.1 hnil
  rw [Prod.mk.injEq] at hfirst hsecond
  exact ⟨go, stay, hgo, hfirst.1, hsecond.1, hsecond.2⟩

theorem crossroads_hostless (s : Session) :
    ∀ x ∈ presented crossroads "Start" (detour ++ [.next 9]), ConditionHostless s x.condition := by
  intro x hx
  obtain ⟨go, stay, he, hgo, hstay, -⟩ := crossroads_presented
  rw [he] at hx
  rcases List.mem_pair.1 hx with rfl | rfl
  · rw [hgo]
    intro name hn
    simp [Expr.leaves] at hn
  · rw [hstay]
    intro name hn
    simp [Expr.leaves] at hn

/-- Whenever an offer is made, in an exchange in which all calls come back: it is made of choices
whose conditions held when they came up; only the first of them can have come up ahead, when choices
of the other kind were waiting to be presented; and the conditions of all others, if they call no
function of the host, hold in the session at that moment. -/
theorem offers_hold (stage : Stage) (title : String) (calls : List Call) (limit number : Nat)
    (offer : Offer)
    (hback : ∀ entry ∈ (opening stage title).transcript calls, entry.2 ≠ .answer .unsettled)
    (hoffer : (((opening stage title).after calls).call (.next limit)).1 =
      .answer (.cue (.options number offer))) :
    let e := (((opening stage title).after calls).call (.next limit)).2
    let found := presented stage title (calls ++ [.next limit])
    (e.run.pending = some ⟨number, found.map Gathered.choice⟩ ∧
      offer = .ofChoices (found.map Gathered.choice)) ∧
    (∀ x ∈ found, (x.session.holds x.condition).1 = .ok true) ∧
    (∀ x ∈ found.tail, x.ahead = false) ∧
    ∀ x ∈ found, x.ahead = false → ConditionHostless e.stage.session x.condition →
      (e.stage.session.holds x.condition).1 = .ok true := by
  have hacc := (Trail.accompanies_opening stage title).along calls hback
  unfold presented
  rw [Trail.along_concat]
  generalize (opening stage title).after calls = e at hoffer hacc ⊢
  generalize Trail.along (opening stage title) {} calls = t at hacc ⊢
  rw [call_next] at hoffer ⊢
  rcases Bool.eq_false_or_eq_true e.run.done with hd | hd
  · rw [Run.next_of_done hd] at hoffer
    cases hoffer
  · obtain ⟨hf, _⟩ := hacc.resolve_left (by simp [hd])
    have ha := hf.advance limit
    rw [Run.next_of_not_done hd] at hoffer ⊢
    simp only [Trail.call, hd, Bool.false_eq_true, if_false]
    generalize t.advance limit e.stage e.run = t' at ha ⊢
    generalize Run.advance limit e.stage e.run = outcome at ha hoffer ⊢
    obtain ⟨progress, g, r⟩ := outcome
    cases progress with
    | silent | ended | waiting | failed => cases hoffer
    | cue c =>
      cases hoffer
      obtain ⟨hpending, hof, hhonest, hcur⟩ := ha.presents number offer rfl
      refine ⟨⟨hpending, hof⟩, hhonest.held, hhonest.order, fun x hx hn hless => ?_⟩
      have halike : g.session.Alike x.session := (hcur x hx hn).symm
      exact (Session.holds_congr halike hless).trans (hhonest.held x hx)

/-- To stay is offered, and its condition holds. -/
theorem offers_hold_crossroads :
    let e := (((opening crossroads "Start").after detour).call (.next 9)).2
    ∃ stay ∈ presented crossroads "Start" (detour ++ [.next 9]),
      stay.condition = some (.unary 5 .not (.var 5 "x")) ∧
      (e.stage.session.holds stay.condition).1 = .ok true := by
  obtain ⟨htold, hoffer, -⟩ := crossroads_detour
  obtain ⟨go, stay, he, -, hstay, hahead⟩ := crossroads_presented
  have hmem : stay ∈ presented crossroads "Start" (detour ++ [.next 9]) := by simp [he]
  obtain ⟨-, -, -, hholds⟩ :=
    offers_hold crossroads "Start" detour 9 1 _ (by rw [htold]; simp) hoffer
  exact ⟨stay, hmem, hstay, hholds stay hmem hahead (crossroads_hostless _ stay hmem)⟩

/-- To go is offered, but its condition does not hold any more. -/
theorem revoked_at_crossroads :
    let e := ((opening crossroads "Start").after detour).call (.next 9)
    let found := presented crossroads "Start" (detour ++ [.next 9])
    e.1 = .answer (.cue (.options 1 ⟨["Go", "Stay"], [4, 5], none⟩)) ∧
    (∀ x ∈ found, ConditionHostless e.2.stage.session x.condition) ∧
    ∃ go ∈ found, (e.2.stage.session.holds go.condition).1 = .ok false := by
  obtain ⟨-, hoffer, -, hfalse⟩ := crossroads_detour
  obtain ⟨go, stay, he, hgo, -, -⟩ := crossroads_presented
  refine ⟨hoffer, crossroads_hostless _, go, by simp [he], ?_⟩
  rw [hgo]
  exact hfalse

end Encounter

end Dialogue
