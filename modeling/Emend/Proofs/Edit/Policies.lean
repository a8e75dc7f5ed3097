import Emend.Proofs.Edit.Moves
import Emend.Proofs.Edit.Renewal

/-! The two policies for a region that is still open when the events have run out. They differ in nothing
but what becomes of that region: up to the end of the events the passes are one and the same, and then the
one hands over the rest of the source where the other gives up. -/
namespace Emend
variable {World : Type} {bindings : List (Binding World)} {document : Document} {memory : Memory World}
  {emended : Emended}

/-- How the pass that refuses an open region ends, when the one that hands it over gives this result. -/
def Refused (document : Document) (emended : Emended) (handed refused : Outcome World) : Prop :=
  match emended.unterminated with
  | [] => refused.answer = .ok emended ∧ refused.journal = handed.journal
  | [region] => region.span.stop = document.source.length ∧
      refused.answer =
        .error (.unterminated region.firstIndex region.span.start document.source.length) ∧
      ∃ position before after, handed.journal = refused.journal ++
        [.leftOpen region.firstIndex, .handed position region before, .closed position region after] ∧
        handed.journal.handed = refused.journal.handed ++ [(position, region)]
  | _ => False

/-- Where both begin in the same memory they go through the events as one. -/
theorem emend_refused (valid : document.Valid)
    (ran : (emend bindings document .handOver memory).answer = .ok emended) :
    Refused document emended (emend bindings document .handOver memory)
      (emend bindings document .fail memory) := by
  obtain ⟨pass, all, outcome⟩ := Pass.emend_eq_ok.mp ran
  obtain ⟨between, -, events, finished, rfl⟩ := Pass.all_eq_ok.mp all
  have moves := Pass.events_moves List.drop_zero events
  have sound := moves.keeps_sound valid (.of_begun memory document)
  have none : between.unterminated = [] := moves.unterminated_eq
  have refused : emend bindings document .fail memory = _ := Pass.emend_of_events_ok (valid.kept 0) events
  rw [outcome, refused]
  unfold Refused
  cases mode : between.mode with
  | searching =>
    -- With no region open the policy is never consulted.
    obtain ⟨writer, copied, rfl⟩ := (Pass.finish_searching_eq_ok mode).mp finished
    have same : Pass.finish .fail document.source between = .ok () { between with writer } :=
      (Pass.finish_searching_eq_ok mode).mpr ⟨writer, copied, rfl⟩
    rw [same]
    dsimp only
    rw [none]
    exact ⟨rfl, rfl⟩
  | editing active =>
    obtain ⟨-, closed, writer, handed, copied, rfl⟩ := (Pass.finish_editing_eq_ok mode).mp finished
    obtain ⟨inner, left, dropped, -, -, -, rfl⟩ := Pass.handOver_eq_ok.mp handed
    rw [Pass.finish_refuses mode]
    dsimp only [Pass.served, Pass.unstopped]
    rw [none]
    refine ⟨Nat.max_eq_right ((sound.held active mode).start_le valid), rfl, active.position, inner,
      dropped, List.append_assoc .., ?_⟩
    simp [Journal.handed]

/-- If the pass that hands over an open region ends well, it has at most one such region, the last one that
it handed over, which reaches to the end of the source. The pass that refuses gives the same result by the
same steps if there is none. Otherwise it fails at that region, having done all the same before, every turn
of a callback but the last. The worlds around the two passes need not have anything in common. -/
theorem policies_agree {elsewhere : Memory World} (valid : document.Valid)
    (detached : ∀ binding ∈ bindings, binding.Detached) (same : ∀ binding ∈ bindings,
      ∀ slot ∈ binding.slots, memory.registers.get slot = elsewhere.registers.get slot)
    (ran : (emend bindings document .handOver memory).answer = .ok emended) :
    Refused document emended (emend bindings document .handOver memory)
      (emend bindings document .fail elsewhere) := by
  obtain ⟨answer, journal⟩ := emend_elsewhere detached same document .fail
  have refused := emend_refused valid ran
  unfold Refused at refused ⊢
  rwa [answer, journal] at refused

/-- Regions from an odd event up to event 2, copied as they are. -/
def oddRuns : Binding Unit where
  start := .fallingEdge 0 (wherever (· % 2 == 0))
  stop := some (wherever (· == 2))
  callback region := .once (.copyTo region.span.stop)

/-- What the pass has come to when its second region, from event 3 on, is refused. A slot that is not its
own makes no difference. -/
theorem oddRuns_policies_agree :
    let handed := emend [oddRuns] fiveRules .handOver { world := () }
    let refused := emend [oddRuns] fiveRules .fail
      { registers := ⟨[(1, { observed := true })]⟩, world := () }
    ∃ region, handed.answer = .ok { text := fiveRules.source, regions := 2, unterminated := [region] } ∧
      refused.answer = .error (.unterminated 3 3 5) ∧ region.firstIndex = 3 ∧ region.span.stop = 5 ∧
      ∃ position, handed.journal.handed = refused.journal.handed ++ [(position, region)] := by
  have valid : fiveRules.Valid := ⟨by decide, by decide⟩
  have plain (accepts : Nat → Bool) : (wherever accepts).Detached := fun cursor => .pure rfl
  have detached : ∀ binding ∈ [oddRuns], binding.Detached := by
    intro binding member
    cases List.mem_singleton.mp member
    exact ⟨plain (· % 2 == 0), fun stop given => Option.mem_some_iff.mp given ▸ plain (· == 2),
      fun region => Script.detached_once _⟩
  let region : Region := {
    source := fiveRules.source
    opening := fiveRules.events[3]
    rest := fiveRules.events.drop 4
    span := .reach 3 5
    firstIndex := 3
    terminated := false }
  have ran : (emend [oddRuns] fiveRules .handOver { world := () }).answer =
      .ok { text := fiveRules.source, regions := 2, unterminated := [region] } := by
    cbv
  obtain ⟨ends, refused, position, before, after, -, turns⟩ :=
    @policies_agree _ _ _ _ _ { registers := ⟨[(1, { observed := true })]⟩, world := () } valid detached
      (by decide) ran
  exact ⟨region, ran, refused, rfl, ends, position, turns⟩

end Emend
