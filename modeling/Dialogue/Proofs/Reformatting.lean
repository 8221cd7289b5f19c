import Dialogue.Proofs.Caching

/-!
# Lines make no difference

Where statements stand is told to the host, and matters for nothing else. Libraries
with bodies that differ in their lines only, such as a body and the same body
formatted, play alike: all calls give the same replies up to lines, and leave the
same session behind.
-/

namespace Dialogue
open Statement (erasedBlock)

/-- Libraries with the same titles, whose bodies are the same under each title or parse to the
same statements up to lines. -/
structure Library.SameShape (l l' : Library) : Prop where
  titles : l.titles = l'.titles
  bodies : ∀ title node node', l.node? title = some node → l'.node? title = some node' →
    node.body = node'.body ∨ ∃ found found', Statement.ofBody node.body.toList = .ok found ∧
      Statement.ofBody node'.body.toList = .ok found' ∧ erasedBlock found = erasedBlock found'

theorem Library.SameShape.twins {l l' : Library} (h : l.SameShape l') (hl : l.Coherent)
    (hl' : l'.Coherent) : l.Twins (fun _ => 0) l' := by
  refine ⟨hl, hl', fun title => ?_⟩
  have hknown : (l.nodes.get? title).isSome ↔ (l'.nodes.get? title).isSome := by
    rw [← Table.mem_sortedNames, ← Table.mem_sortedNames]
    exact Iff.of_eq (congrArg (title ∈ ·) h.titles)
  have hbodies := h.bodies title
  unfold Library.node? at hbodies
  unfold parsedBody
  cases hn : l.nodes.get? title with
  | none =>
    rw [hn] at hknown
    rw [Option.not_isSome_iff_eq_none.1 (mt hknown.2 Bool.noConfusion)]
  | some node =>
    rw [hn] at hknown hbodies
    obtain ⟨node', hn'⟩ := Option.isSome_iff_exists.1 (hknown.1 rfl)
    rw [hn'] at hbodies ⊢
    rcases hbodies node node' rfl rfl with hsame | ⟨found, found', hfound, hfound', hlines⟩
    · simp only [hsame]
    · simp only [hfound, hfound', Run.bodyMapLines, Statement.blockMapLines_const, hlines]

namespace Encounter

/-- From any two histories that lead to libraries of the same shape, with one session and one past:
a run from any title gives the same replies to all calls, up to lines, and the same variables, nodes
entered and calls of the host come out of it. -/
theorem lines_unnoticed (history history' : List Host.Action) (session : Session)
    (offers : List Offer) (title : String) (calls : List Call)
    (h : (Host.after history).stage.library.SameShape (Host.after history').stage.library) :
    let e := opening ⟨(Host.after history).stage.library, session, offers⟩ title
    let e' := opening ⟨(Host.after history').stage.library, session, offers⟩ title
    ((e.transcript calls).map fun entry => entry.2.mapLines fun _ => 0) =
        ((e'.transcript calls).map fun entry => entry.2.mapLines fun _ => 0) ∧
      (e.after calls).stage.session = (e'.after calls).stage.session := by
  intro e e'
  have htwins : Twins (fun _ => 0) e e' :=
    ⟨⟨h.twins (Host.after_coherent history) (Host.after_coherent history'), rfl, rfl⟩, rfl⟩
  obtain ⟨hreplies, hafter⟩ := after_twins htwins calls
  exact ⟨hreplies, hafter.stage.session⟩

/-- A choice written close together, and the same choice with more room. -/
def narrow : Node := ⟨"Start", "-> Stay\n-> Leave\n\t<<set $x = true>>\nNight", ""⟩

def wide : Node := ⟨"Start", "\n -> Stay\n\n -> Leave\n   <<set  $x to true>>\n\n Night\n", ""⟩

theorem narrow_sameShape_wide : (Host.after [.load [narrow]]).stage.library.SameShape
    (Host.after [.load [wide]]).stage.library := by
  refine ⟨by cbv, fun title node node' hn hn' => Or.inr ?_⟩
  have hmem : node ∈ [narrow] := List.mem_of_find?_eq_some
    (((Host.after_shelved [.load [narrow]]).nodes title).symm.trans hn)
  have hmem' : node' ∈ [wide] := List.mem_of_find?_eq_some
    (((Host.after_shelved [.load [wide]]).nodes title).symm.trans hn')
  obtain rfl : node = narrow := List.mem_singleton.1 hmem
  obtain rfl : node' = wide := List.mem_singleton.1 hmem'
  refine ⟨[.shortcut 1 "Stay" none [], .shortcut 2 "Leave" none
      [.assignment 3 "x" .set (.literal 3 (.bool true))], .text 4 "Night"],
    [.shortcut 2 "Stay" none [], .shortcut 4 "Leave" none
      [.assignment 5 "x" .set (.literal 5 (.bool true))], .text 7 "Night"], by cbv, by cbv, rfl⟩

def leaving : List Call := [.next 9, .select 0 1, .next 9]

theorem lines_unnoticed_wide :
    let e := opening ⟨(Host.after [.load [narrow]]).stage.library, {}, []⟩ "Start"
    let e' := opening ⟨(Host.after [.load [wide]]).stage.library, {}, []⟩ "Start"
    (e.transcript leaving).map Prod.snd =
        [.answer (.cue (.options 0 ⟨["Stay", "Leave"], [1, 2], none⟩)), .selected,
          .answer (.cue (.text "Night" "Start" 4))] ∧
      ((e'.transcript leaving).map fun entry => entry.2.mapLines fun _ => 0) =
        [.answer (.cue (.options 0 ⟨["Stay", "Leave"], [0, 0], none⟩)), .selected,
          .answer (.cue (.text "Night" "Start" 0))] ∧
      (e'.after leaving).stage.session.store.get? "x" = some (.bool true) := by
  intro e e'
  obtain ⟨hreplies, hsession⟩ := lines_unnoticed [.load [narrow]] [.load [wide]] {} [] "Start"
    leaving narrow_sameShape_wide
  have hreal : (e.transcript leaving).map Prod.snd =
      [.answer (.cue (.options 0 ⟨["Stay", "Leave"], [1, 2], none⟩)), .selected,
        .answer (.cue (.text "Night" "Start" 4))] := by cbv
  refine ⟨hreal, ?_, ?_⟩
  · rw [← hreplies]
    exact (List.map_map ..).symm.trans (congrArg (List.map (Reply.mapLines fun _ => 0)) hreal)
  · rw [← hsession]
    cbv

end Encounter

end Dialogue
