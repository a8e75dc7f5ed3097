import Emend.Proofs.Matcher.Meaning
import Emend.Proofs.Matcher.Renaming
import Emend.Proofs.Matcher.Scanning

/-! Matchers that are used again. Scans leave a tree in whatever state they were given up in, below fired
one-shots as well, and its shared parts along with it. All of that is in its slots. So a reset of these
makes it the tree that was first built, and a copy is such a tree at once, on slots that no scan of the
original reads or writes. -/
namespace Emend
variable {World α β σ τ : Type}

/-- How a computation ended, apart from the state that it left. -/
def outcomeOf : EStateM.Result Fault σ α → Except Fault α
  | .ok answer _ => .ok answer
  | .error fault _ => .error fault

private theorem Together.outcome_eq {states : σ → τ → Prop} {first : EStateM.Result Fault σ α}
    {second : EStateM.Result Fault τ α} (ended : Together Eq states first second) :
    outcomeOf first = outcomeOf second := by
  cases ended with
  | ok answered => exact congrArg Except.ok answered
  | error => rfl

private theorem Predicate.Pure.detached {check : Predicate World} (pure : check.Pure) : check.Detached := by
  obtain ⟨holds, runs⟩ := pure
  intro cursor
  rw [runs]
  exact .pure rfl

/-- A scan of a tree: a search for at most so many matches, or asking it at events of a document one after
the other, wherever that begins, whichever it leaves out and wherever it is given up. -/
inductive Scan where
  | search (document : Document) (limit : Option Nat)
  | asking (document : Document) (events : List Nat)

namespace Matcher
variable {matcher : Matcher World} {first spent memory elsewhere : Memory World} {change : Slot → Slot}

/-- Pure checks answer from the cursor alone. -/
theorem Pure.detached (pure : matcher.Pure) : matcher.Detached := by
  induction matcher with
  | always | heading => trivial
  | predicate check => exact Predicate.Pure.detached pure
  | both left right ihLeft ihRight => exact ⟨ihLeft pure.1, ihRight pure.2⟩
  | oneShot slot inner ih | fallingEdge slot inner ih | nextLine slot inner ih => exact ih pure
  | foreign thing => exact pure.elim

/-- What a scan of the tree makes of the memory, however it ends. -/
def scanned (matcher : Matcher World) (memory : Memory World) : Scan → Memory World
  | .search document limit => stateOf (Search.indices (.matcher matcher) document limit memory)
  | .asking document events =>
    events.foldl (fun memory index => stateOf (matcher.evaluate { document, index } memory)) memory

def scannedAll (matcher : Matcher World) (scans : List Scan) (memory : Memory World) : Memory World :=
  scans.foldl matcher.scanned memory

/-- Only these slots were written, and no slots were taken. -/
def Confined (slots : List Slot) (before after : Memory World) : Prop :=
  Untouched slots before after ∧ after.free = before.free

theorem Confined.refl (slots : List Slot) (memory : Memory World) : Confined slots memory memory :=
  ⟨fun _ _ => rfl, rfl⟩

theorem Confined.trans {slots : List Slot} {before middle after : Memory World}
    (begun : Confined slots before middle) (goes : Confined slots middle after) :
    Confined slots before after :=
  ⟨begun.1.trans goes.1, goes.2.trans begun.2⟩

private theorem evaluate_confined (matcher : Matcher World) (cursor : Cursor) :
    Keeps (Confined matcher.slots) (matcher.evaluate cursor) := by
  have free : Keeps (fun before after : Memory World => after.free = before.free)
      (matcher.evaluate cursor) := by
    unfold evaluate
    split
    · exact fun memory => rfl
    refine @observe_keeps World cursor _ (fun before after => after.free = before.free)
      (fun memory => rfl) (fun begun goes => goes.trans begun) matcher ?_ ?_
    · intro p member memory
      unfold check
      split <;> rfl
    · exact fun slot own cell memory => rfl
  exact fun memory => ⟨evaluate_untouched matcher memory, free memory⟩

/-- One scan. -/
theorem scanned_confined (matcher : Matcher World) (memory : Memory World) (scan : Scan) :
    Confined matcher.slots memory (matcher.scanned memory scan) := by
  cases scan with
  | search document limit =>
    exact Search.indices_keeps (Confined.refl _) Confined.trans (evaluate_confined matcher) limit memory
  | asking document events =>
    unfold scanned
    induction events generalizing memory with
    | nil => exact .refl _ memory
    | cons index later ih => exact (evaluate_confined matcher _ memory).trans (ih _)

/-- All scans, one after the other. -/
theorem scannedAll_confined (matcher : Matcher World) (scans : List Scan) (memory : Memory World) :
    Confined matcher.slots memory (matcher.scannedAll scans memory) := by
  unfold scannedAll
  induction scans generalizing memory with
  | nil => exact .refl _ memory
  | cons scan later ih => exact (scanned_confined matcher memory scan).trans (ih _)

/-- A search is a matter of what the slots hold, whatever their names and whatever else the memory holds. -/
theorem indices_outcome (detached : matcher.Detached)
    (apart : ∀ slot ∈ matcher.slots, ∀ other ∈ matcher.slots, change slot = change other → slot = other)
    (same : ∀ slot ∈ matcher.slots, memory.registers.get slot = elsewhere.registers.get (change slot))
    (document : Document) (limit : Option Nat) :
    outcomeOf (Search.indices (.matcher matcher) document limit memory) =
      outcomeOf (Search.indices (.matcher (matcher.rename change)) document limit elsewhere) := by
  have names : Names matcher.slots id change := ⟨fun _ _ _ _ equal => equal, apart⟩
  have asked := evaluate_lockstep names detached fun slot own => own
  rw [rename_id] at asked
  exact (Search.indices_lockstep asked limit memory elsewhere same).outcome_eq

/-- After any scans a reset makes a tree the one that was first built: every slot holds what it held then,
and the next search finds what a first one would have found, or fails as that would have. A copy made
instead finds the same, and neither making it nor any scans of it change the state of the original. -/
theorem reset_fresh_restore (whole : matcher.complete = true) (detached : matcher.Detached)
    (initial : ∀ slot ∈ matcher.slots, first.registers.get slot = {})
    (used : ∀ slot ∈ matcher.slots, slot < first.free) (scans : List Scan) :
    let spent := matcher.scannedAll scans first
    (∃ registers, matcher.reset spent.registers = .ok () registers ∧
      (∀ slot, registers.get slot = first.registers.get slot) ∧
      ∀ document limit, outcomeOf (Search.indices (.matcher matcher) document limit { spent with registers }) =
        outcomeOf (Search.indices (.matcher matcher) document limit first)) ∧
    (∃ copy begun, matcher.fresh spent = .ok copy begun ∧
      (∀ document limit, outcomeOf (Search.indices (.matcher copy) document limit begun) =
        outcomeOf (Search.indices (.matcher matcher) document limit first)) ∧
      ∀ slot ∈ matcher.slots, begun.registers.get slot = spent.registers.get slot ∧
        ∀ further, (copy.scannedAll further begun).registers.get slot = spent.registers.get slot) ∧
    (matcher.Pure → ∀ document, document.Valid → ∃ found,
      outcomeOf (Search.indices (.matcher matcher) document none first) = .ok found) := by
  intro spent
  obtain ⟨untouched, free⟩ : Confined matcher.slots first spent := scannedAll_confined matcher scans first
  have restored : ∀ slot, (spent.registers.forgetAll matcher.slots).get slot = first.registers.get slot := by
    intro slot
    rw [Registers.get_forgetAll]
    split
    · rename_i own
      exact (initial slot own).symm
    · rename_i outside
      exact untouched slot outside
  refine ⟨⟨_, reset_of_complete whole spent.registers, restored, fun document limit => ?_⟩,
    ⟨_, _, fresh_of_complete whole spent, fun document limit => ?_, fun slot own => ?_⟩, ?_⟩
  · have same := @indices_outcome _ _ { spent with registers := spent.registers.forgetAll matcher.slots }
      first id detached (fun _ _ _ _ equal => equal) (fun slot own => restored slot) document limit
    rwa [rename_id] at same
  · rw [shift_eq_rename fun slot own => rfl]
    refine (indices_outcome detached (fun _ _ _ _ => Nat.add_left_cancel) (fun slot own => ?_) document
      limit).symm
    rw [initial slot own, Registers.get_forgetAll, slots_rename, if_pos (List.mem_map_of_mem own)]
  · -- The slots of the copy lie past all that were in use.
    have outside : slot ∉ (matcher.shift spent.free).slots := by
      rw [slots_shift, free]
      intro inside
      obtain ⟨other, -, rfl⟩ := List.mem_map.mp inside
      exact absurd (used _ own) (Nat.not_lt.mpr (Nat.le_add_right ..))
    have kept : (spent.registers.forgetAll (matcher.shift spent.free).slots).get slot =
        spent.registers.get slot := by
      rw [Registers.get_forgetAll, if_neg outside]
    exact ⟨kept, fun further => ((scannedAll_confined _ further _).1 slot outside).trans kept⟩
  · intro pure document valid
    rw [Search.indices_eq_ok valid pure first]
    exact ⟨_, rfl⟩

/-- The event on the line after the second heading. The matcher for such events stands in the tree twice,
once below a one-shot. -/
def afterSecond : Matcher Unit :=
  .both (.fallingEdge 2 (.nextLine 3 (.oneShot 0 (afterHeading 1)))) (afterHeading 1)

/-- A scan given up after two events leaves the one-shot fired, and the tree finds nothing from then on.
After a reset it finds its event again, and so does a copy. -/
theorem afterSecond_reset_fresh_restore :
    let first : Memory Unit := { free := 4, world := () }
    let spent := afterSecond.scannedAll [.asking twoHeadings [0, 1], .search twoHeadings (some 1)] first
    outcomeOf (Search.indices (.matcher afterSecond) twoHeadings none spent) = .ok [] ∧
    (∃ registers, afterSecond.reset spent.registers = .ok () registers ∧
      outcomeOf (Search.indices (.matcher afterSecond) twoHeadings none { spent with registers }) =
        .ok [3]) ∧
    ∃ copy begun, afterSecond.fresh spent = .ok copy begun ∧
      outcomeOf (Search.indices (.matcher copy) twoHeadings none begun) = .ok [3] ∧
      begun.registers.get 0 = { shot := .fired } := by
  intro first spent
  have pure : afterSecond.Pure := ⟨trivial, trivial⟩
  obtain ⟨⟨registers, cleared, -, again⟩, ⟨copy, begun, copied, found, kept⟩, -⟩ :=
    @reset_fresh_restore _ afterSecond first pure.complete pure.detached (fun slot member => rfl) (by decide)
      [.asking twoHeadings [0, 1], .search twoHeadings (some 1)]
  have atFirst : outcomeOf (Search.indices (.matcher afterSecond) twoHeadings none first) = .ok [3] := by
    decide +kernel
  refine ⟨by decide +kernel, ⟨registers, cleared, (again _ _).trans atFirst⟩, copy, begun, copied,
    (found _ _).trans atFirst, (kept 0 (by decide)).1.trans (by decide +kernel)⟩

end Matcher
end Emend
