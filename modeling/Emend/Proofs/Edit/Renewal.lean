import Emend.Proofs.Edit.Abreast
import Emend.Proofs.Edit.Priority

/-! Fresh copies of bindings. A copy has slots of its own, so it is run without the original noticing, and
it edits as the original does after a reset, as far as the copy shares what the original shares. It does
within each of its two matchers; but these are copied one after the other, and a matcher that stands in
both of them is two matchers in the copy. -/
namespace Emend
variable {World : Type} {here there : Slot → Slot} {document : Document} {policy : Policy}
  {memory elsewhere : Memory World}

private theorem Registers.forgetAll_append (registers : Registers) (first second : List Slot) :
    registers.forgetAll (first ++ second) = (registers.forgetAll first).forgetAll second :=
  List.foldl_append

namespace Binding
variable {binding : Binding World}

/-- Every place of both trees holds a matcher, so they can be reset. -/
def Complete (binding : Binding World) : Prop :=
  binding.start.complete = true ∧ ∀ stop ∈ binding.stop, stop.complete = true

/-- The binding with each matcher shifted by a distance of its own. -/
def spread (start stop : Slot) (binding : Binding World) : Binding World :=
  { binding with start := binding.start.shift start, stop := binding.stop.map (·.shift stop) }

private theorem slots_rename (binding : Binding World) (change : Slot → Slot) :
    (binding.rename change).slots = binding.slots.map change := by
  unfold slots rename
  rw [Matcher.slots_rename, List.map_append]
  cases binding.stop with
  | none => rfl
  | some stop => exact congrArg _ (Matcher.slots_rename ..)

/-- Of a binding on fresh slots: the registers of two copies hold the same, and those of the second have
not changed where it has no slots. -/
def Kept (binding : Binding World) (here there : Slot → Slot) (base first second : Registers) : Prop :=
  Matcher.Renamed binding.slots here there first second ∧
    ∀ slot, slot ∉ (binding.rename there).slots → second.get slot = base.get slot

private theorem evaluate_keeps {matcher : Matcher World} {base : Registers} (detached : matcher.Detached)
    (names : Matcher.Names binding.slots here there) (part : ∀ slot ∈ matcher.slots, slot ∈ binding.slots)
    (cursor : Cursor) : Lockstep Eq (OnRegisters (binding.Kept here there base))
      ((matcher.rename here).evaluate cursor) ((matcher.rename there).evaluate cursor) := by
  have own : ∀ slot, slot ∉ (binding.rename there).slots → slot ∉ (matcher.rename there).slots := by
    intro slot outside inside
    rw [Matcher.slots_rename] at inside
    rw [slots_rename] at outside
    obtain ⟨given, member, rfl⟩ := List.mem_map.mp inside
    exact outside (List.mem_map_of_mem (part given member))
  refine (Matcher.evaluate_lockstep names detached part cursor).frame
    (Matcher.evaluate_untouched (matcher.rename there)) ?_
  intro before after held untouched slot outside
  rw [untouched slot (own slot outside)]
  exact held slot outside

/-- Two copies of a binding whose registers hold the same edit alike, and the second writes no slots but
its own. -/
theorem emend_rename (detached : binding.Detached) (names : Matcher.Names binding.slots here there)
    (same : Matcher.Renamed binding.slots here there memory.registers elsewhere.registers) :
    let first := emend [binding.rename here] document policy memory
    let second := emend [binding.rename there] document policy elsewhere
    first.answer = second.answer ∧ first.journal = second.journal ∧
      ∀ slot, slot ∉ (binding.rename there).slots →
        second.memory.registers.get slot = elsewhere.registers.get slot := by
  have related : binding.Kept here there elsewhere.registers memory.registers elsewhere.registers :=
    ⟨same, fun _ _ => rfl⟩
  have twin : (binding.rename here).Twin (binding.Kept here there elsewhere.registers)
      (binding.rename there) :=
    twin_rename detached fun _ apart part cursor => evaluate_keeps apart names part cursor
  have twins : List.Forall₂ (Twin (binding.Kept here there elsewhere.registers)) [binding.rename here]
      [binding.rename there] := .cons twin .nil
  obtain ⟨answer, journal, kept⟩ := emend_twins twins related document policy
  exact ⟨answer, journal, kept.2⟩

/-- A reset puts exactly the slots of the binding back into their initial state. -/
theorem reset_of_complete (whole : binding.Complete) (registers : Registers) :
    binding.reset registers = .ok () (registers.forgetAll binding.slots) := by
  unfold reset slots
  rw [bind_of_ok (Matcher.reset_of_complete whole.1 registers)]
  cases stops : binding.stop with
  | none => rw [Option.elim_none, List.append_nil]; rfl
  | some stop =>
    have cleared := Matcher.reset_of_complete (whole.2 stop stops)
      (registers.forgetAll binding.start.slots)
    rw [Option.elim_some, Registers.forgetAll_append]
    exact cleared

/-- A fresh copy has its matchers on slots past all that were in use, the stop's before the start's. They
are in their initial state, and no other slot has changed. -/
theorem fresh_of_complete (whole : binding.Complete) (memory : Memory World) : ∃ distance begun,
    binding.fresh memory = .ok (binding.spread distance memory.free) begun ∧
    memory.free ≤ distance ∧ (∀ stop ∈ binding.stop, distance = memory.free + memory.free) ∧
    ∀ slot, begun.registers.get slot =
      if slot ∈ (binding.spread distance memory.free).slots then {} else memory.registers.get slot := by
  obtain ⟨start, stop, callback⟩ := binding
  cases stop with
  | none =>
    have copied := Matcher.fresh_of_complete whole.1 memory
    refine ⟨memory.free, _, (bind_of_ok copied).trans rfl, Nat.le_refl _, by simp, fun slot => ?_⟩
    simp [slots, spread, Registers.get_forgetAll]
  | some stop =>
    have copied := Matcher.fresh_of_complete (whole.2 stop rfl) memory
    have again := Matcher.fresh_of_complete whole.1 { memory with
      registers := memory.registers.forgetAll (stop.shift memory.free).slots
      free := memory.free + memory.free }
    refine ⟨memory.free + memory.free, _, (bind_of_ok copied).trans ((bind_of_ok again).trans rfl),
      Nat.le_add_left _ _, fun _ _ => rfl, fun slot => ?_⟩
    simp only [slots, spread, Option.map_some, Option.elim_some, Registers.get_forgetAll, List.mem_append,
      ite_or]

/-- Run where its slots are in their initial state, the copy edits every document as the original does
after a reset: the same text, regions and unterminated list, or the same fault, by the same steps. -/
def EditsAsReset (copy : Binding World) (begun : Memory World) (original : Binding World) : Prop :=
  ∀ document policy (elsewhere : Memory World), ∃ registers,
    original.reset elsewhere.registers = .ok () registers ∧
    let copied := emend [copy] document policy begun
    let renewed := emend [original] document policy { elsewhere with registers }
    copied.answer = renewed.answer ∧ copied.journal = renewed.journal

/-- A binding with other slots edits as the original does after a reset, if different slots are still
different ones and in their initial state. -/
theorem editsAsReset_rename {change : Slot → Slot} {begun : Memory World} (whole : binding.Complete)
    (detached : binding.Detached)
    (injective : ∀ slot ∈ binding.slots, ∀ other ∈ binding.slots, change slot = change other → slot = other)
    (initial : ∀ slot ∈ (binding.rename change).slots, begun.registers.get slot = {}) :
    (binding.rename change).EditsAsReset begun binding := by
  intro document policy elsewhere
  refine ⟨_, reset_of_complete whole elsewhere.registers, ?_⟩
  have names : Matcher.Names binding.slots change id := ⟨injective, fun _ _ _ _ same => same⟩
  have same : Matcher.Renamed binding.slots change id begun.registers
      (elsewhere.registers.forgetAll binding.slots) := by
    intro slot member
    rw [id, Registers.get_forgetAll, if_pos member]
    exact initial _ (slots_rename binding change ▸ List.mem_map_of_mem member)
  obtain ⟨answer, journal, -⟩ := @emend_rename _ change id document policy begun
    { elsewhere with registers := elsewhere.registers.forgetAll binding.slots } binding detached names same
  rw [rename_id] at answer journal
  exact ⟨answer, journal⟩

private theorem mem_slots_spread {first second slot : Slot} : slot ∈ (binding.spread first second).slots ↔
    (∃ given ∈ binding.start.slots, first + given = slot) ∨
      ∃ stop ∈ binding.stop, ∃ given ∈ stop.slots, second + given = slot := by
  simp only [mem_slots, spread, Matcher.slots_shift, List.mem_map, Option.mem_map, exists_exists_and_eq_and]

private theorem spread_eq_rename {first second : Slot} {change : Slot → Slot}
    (started : ∀ slot ∈ binding.start.slots, change slot = first + slot)
    (stopped : ∀ stop ∈ binding.stop, ∀ slot ∈ stop.slots, change slot = second + slot) :
    binding.spread first second = binding.rename change := by
  unfold spread rename
  rw [Matcher.shift_eq_rename started]
  cases stops : binding.stop with
  | none => rfl
  | some stop => rw [Option.map_some, Matcher.shift_eq_rename (stopped stop stops), Option.map_some]

private theorem spread_spread_zero (first second : Slot) :
    (binding.spread 0 second).spread first 0 = binding.spread first second := by
  have same : (fun stop : Matcher World => stop.shift 0) = id := funext Matcher.shift_zero
  unfold spread
  rw [Matcher.shift_zero, same, Option.map_id, id]

private theorem Complete.spread_complete (whole : binding.Complete) (first second : Slot) :
    (binding.spread first second).Complete := by
  refine ⟨(Matcher.complete_shift ..).trans whole.1, fun stop given => ?_⟩
  obtain ⟨own, member, rfl⟩ := Option.mem_map.mp given
  exact (Matcher.complete_shift ..).trans (whole.2 own member)

private theorem Detached.spread_detached (detached : binding.Detached) (first second : Slot) :
    (binding.spread first second).Detached := by
  refine ⟨Matcher.detached_shift detached.start first, fun stop given => ?_, detached.callback⟩
  obtain ⟨own, member, rfl⟩ := Option.mem_map.mp given
  exact Matcher.detached_shift (detached.stop own member) second

/-- A run writes no slots but those of its binding. -/
theorem emend_untouched (detached : binding.Detached) (document : Document) (policy : Policy)
    (memory : Memory World) {slot : Slot} (outside : slot ∉ binding.slots) :
    (emend [binding] document policy memory).memory.registers.get slot = memory.registers.get slot := by
  have names : Matcher.Names binding.slots id id := ⟨fun _ _ _ _ same => same, fun _ _ _ _ same => same⟩
  obtain ⟨-, -, kept⟩ := @emend_rename _ id id document policy memory memory binding detached names
    fun _ _ => rfl
  rw [rename_id] at kept
  exact kept slot outside

/-- A copy that has moved the matchers apart, the start's slots past all of the stop's, edits as the
original does after a reset, if the two did not share any slot before. -/
theorem editsAsReset_spread {first second : Slot} {begun : Memory World} (whole : binding.Complete)
    (detached : binding.Detached)
    (apart : ∀ stop ∈ binding.stop, ∀ slot ∈ stop.slots, slot ∉ binding.start.slots)
    (below : ∀ stop ∈ binding.stop, ∀ slot ∈ stop.slots, second + slot < first)
    (initial : ∀ slot ∈ (binding.spread first second).slots, begun.registers.get slot = {}) :
    (binding.spread first second).EditsAsReset begun binding := by
  have renamed : binding.spread first second =
      binding.rename fun slot => if slot ∈ binding.start.slots then first + slot else second + slot :=
    spread_eq_rename (fun slot member => if_pos member)
      fun stop given slot member => if_neg (apart stop given slot member)
  rw [renamed] at initial ⊢
  refine editsAsReset_rename whole detached ?_ initial
  have differ {slot other : Slot} (outside : other ∉ binding.start.slots) (member : other ∈ binding.slots) :
      first + slot ≠ second + other := by
    obtain ⟨stop, given, inside⟩ := (mem_slots.mp member).resolve_left outside
    exact ((below stop given other inside).trans_le (Nat.le_add_right ..)).ne'
  intro slot inside other member same
  by_cases started : slot ∈ binding.start.slots <;> by_cases begins : other ∈ binding.start.slots
  · simpa only [if_pos started, if_pos begins, Nat.add_left_cancel_iff] using same
  · rw [if_pos started, if_neg begins] at same
    exact absurd same (differ begins member)
  · rw [if_neg started, if_pos begins] at same
    exact absurd same.symm (differ started inside)
  · simpa only [if_neg started, if_neg begins, Nat.add_left_cancel_iff] using same

/-- A fresh copy can be made of every binding. It edits every document as the original does after a reset,
once the original's stop matcher stands on slots of its own: where start and stop share no state that is
the original itself, and where they share some, the copy does not. Making the copy and running it leaves
alone all slots that were in use before. -/
theorem fresh_editsAsReset {memory : Memory World} (whole : binding.Complete)
    (detached : binding.Detached) (used : ∀ slot ∈ binding.slots, slot < memory.free) :
    ∃ copy begun, binding.fresh memory = .ok copy begun ∧
      copy.EditsAsReset begun (binding.spread 0 memory.free) ∧
      ((∀ stop ∈ binding.stop, ∀ slot ∈ stop.slots, slot ∉ binding.start.slots) →
        copy.EditsAsReset begun binding) ∧
      ∀ slot < memory.free, begun.registers.get slot = memory.registers.get slot ∧
        ∀ document policy, (emend [copy] document policy begun).memory.registers.get slot =
          memory.registers.get slot := by
  obtain ⟨distance, begun, copied, far, doubled, held⟩ := fresh_of_complete whole memory
  have initial : ∀ slot ∈ (binding.spread distance memory.free).slots, begun.registers.get slot = {} :=
    fun slot member => (held slot).trans (if_pos member)
  have started : ∀ slot ∈ binding.start.slots, slot < memory.free :=
    fun slot member => used slot (mem_slots.mpr (.inl member))
  have below : ∀ stop ∈ binding.stop, ∀ slot ∈ stop.slots, memory.free + slot < distance := by
    intro stop given slot member
    rw [doubled stop given]
    exact Nat.add_lt_add_left (used slot (mem_slots.mpr (.inr ⟨stop, given, member⟩))) _
  refine ⟨_, begun, copied, ?_, fun apart => ?_, fun slot free => ?_⟩
  · -- With the stop's slots past all that were in use, the two matchers cannot share any.
    rw [← spread_spread_zero] at initial ⊢
    refine editsAsReset_spread (whole.spread_complete 0 _) (detached.spread_detached 0 _) ?_ ?_ initial
    all_goals
      intro stop given slot member
      obtain ⟨own, inside, rfl⟩ := Option.mem_map.mp given
      rw [Matcher.slots_shift] at member
      obtain ⟨place, within, rfl⟩ := List.mem_map.mp member
    · intro inStart
      rw [spread, Matcher.shift_zero] at inStart
      exact absurd (started _ inStart) (Nat.not_lt.mpr (Nat.le_add_right ..))
    · rw [Nat.zero_add]
      exact below own inside place within
  · exact editsAsReset_spread whole detached apart below initial
  · have outside : slot ∉ (binding.spread distance memory.free).slots := by
      intro inside
      rcases mem_slots_spread.mp inside with ⟨given, -, rfl⟩ | ⟨_, -, given, -, rfl⟩
      · exact absurd free (Nat.not_lt.mpr (far.trans (Nat.le_add_right ..)))
      · exact absurd free (Nat.not_lt.mpr (Nat.le_add_right ..))
    have same : begun.registers.get slot = memory.registers.get slot := (held slot).trans (if_neg outside)
    refine ⟨same, fun document policy => ?_⟩
    exact (emend_untouched (detached.spread_detached distance _) document policy begun outside).trans same

/-- A region from the first odd event up to the event after event 3, in one run only. -/
def onceOdd : Binding Unit where
  start := .oneShot 0 (wherever (· % 2 == 1))
  stop := some (.fallingEdge 1 (wherever (· == 3)))
  callback := fun _ => .done

/-- The one-shot has fired in a run before. -/
def spent : Memory Unit where
  registers := ⟨[(0, { shot := .fired })]⟩
  free := 2
  world := ()

/-- The copy does not take over that the one-shot is spent, and it edits as the binding does once that is
reset. The one-shot of the binding itself stays spent. -/
theorem onceOdd_fresh_editsAsReset : ∃ copy begun registers, onceOdd.fresh spent = .ok copy begun ∧
    onceOdd.reset spent.registers = .ok () registers ∧
    (emend [copy] fiveRules .handOver begun).answer = .ok { text := ['a', 'e'], regions := 1 } ∧
    (emend [onceOdd] fiveRules .handOver { spent with registers }).answer =
      .ok { text := ['a', 'e'], regions := 1 } ∧
    (emend [copy] fiveRules .handOver begun).memory.registers.get 0 = { shot := .fired } := by
  have plain (accepts : Nat → Bool) : (wherever accepts).Detached := fun cursor => .pure rfl
  have whole : onceOdd.Complete := ⟨rfl, fun stop given => Option.mem_some_iff.mp given ▸ rfl⟩
  have detached : onceOdd.Detached := ⟨plain (· % 2 == 1),
    fun stop given => Option.mem_some_iff.mp given ▸ plain (· == 3), fun _ _ _ same => .ok rfl same⟩
  obtain ⟨copy, begun, copied, -, edits, kept⟩ := @fresh_editsAsReset _ onceOdd spent whole detached
    (by decide)
  obtain ⟨registers, reset, same, -⟩ := edits (by decide) fiveRules .handOver spent
  have cleared : onceOdd.reset spent.registers = .ok () {} := rfl
  cases reset.symm.trans cleared
  have renewed : (emend [onceOdd] fiveRules .handOver { spent with registers := {} }).answer =
      .ok { text := ['a', 'e'], regions := 1 } := by
    cbv
  refine ⟨copy, begun, {}, copied, cleared, same.trans renewed, renewed, ?_⟩
  exact (kept 0 Nat.two_pos).2 fiveRules .handOver

/-- Start and stop share a one-shot: once the start has fired it is spent for the stop as well. -/
def entwined : Binding Unit where
  start := .oneShot 0 .always
  stop := some (.fallingEdge 1 (.oneShot 0 .always))
  callback := fun _ => .done

/-- So the stop of the binding itself never sees the one-shot fire and nothing stops the region. The copy
has two of them, and its region is one event long: another text, and another unterminated list. -/
theorem entwined_fresh_differs : fiveRules.Valid ∧ entwined.Complete ∧ entwined.Detached ∧
    (∀ slot ∈ entwined.slots, slot < 2) ∧ ∃ copy begun region,
      entwined.fresh { free := 2, world := () } = .ok copy begun ∧ entwined.reset {} = .ok () {} ∧
      (emend [copy] fiveRules .handOver begun).answer =
        .ok { text := ['b', 'c', 'd', 'e'], regions := 1 } ∧
      (emend [entwined] fiveRules .handOver { free := 2, world := () }).answer =
        .ok { text := [], regions := 1, unterminated := [region] } := by
  have whole : entwined.Complete := ⟨rfl, fun stop given => Option.mem_some_iff.mp given ▸ rfl⟩
  have detached : entwined.Detached :=
    ⟨trivial, fun stop given => Option.mem_some_iff.mp given ▸ trivial, fun _ _ _ same => .ok rfl same⟩
  let toTheEnd : Region := {
    source := fiveRules.source
    opening := fiveRules.events[0]
    rest := fiveRules.events.tail
    span := .reach 0 5
    firstIndex := 0
    terminated := false }
  refine ⟨⟨by decide, by decide⟩, whole, detached, by decide, entwined.spread 4 2,
    { free := 8, world := () }, toTheEnd, rfl, rfl, ?_, ?_⟩ <;> cbv

end Binding
end Emend
