import Emend.Matcher.Tree
import Emend.Proofs.Computation

/-! What asking one matcher of a tree does, given what asking its inner matcher did, and that a tree
writes no slots but its own. -/
namespace Emend.Matcher
variable {World : Type} {cursor : Cursor} {event : Event} {slot : Slot} {inner : Matcher World}
  {memory between : Memory World} {observed : Bool}

theorem observe_both_eq_ok {left right : Matcher World} {answer : Bool} {after : Memory World} :
    (both left right).observe cursor event memory = .ok answer after ↔ ∃ first middle second,
      left.observe cursor event memory = .ok first middle ∧
      right.observe cursor event middle = .ok second after ∧ (first && second) = answer := by
  simp only [observe, bind_eq_ok, pure_eq_ok]
  constructor
  · rintro ⟨first, middle, asked, second, _, askedRight, rfl, rfl⟩
    exact ⟨first, middle, second, asked, askedRight, rfl⟩
  · rintro ⟨first, middle, second, asked, askedRight, rfl⟩
    exact ⟨first, middle, asked, second, after, askedRight, rfl, rfl⟩

theorem observe_oneShot_fired (fired : (memory.registers.get slot).shot = .fired) :
    (oneShot slot inner).observe cursor event memory = .ok false memory := by
  simp only [observe, bind, EStateM.bind, remembered, fired, pure, EStateM.pure]

theorem observe_oneShot_armed (armed : (memory.registers.get slot).shot = .armed)
    (ran : inner.observe cursor event memory = .ok observed between) :
    (oneShot slot inner).observe cursor event memory =
      .ok (OneShotState.step .armed observed).2 { between with
        registers := between.registers.set slot { memory.registers.get slot with
          shot := (OneShotState.step .armed observed).1 } } := by
  simp only [observe, bind, EStateM.bind, remembered, remember, armed, ran, pure, EStateM.pure]

theorem observe_fallingEdge (ran : inner.observe cursor event memory = .ok observed between) :
    (fallingEdge slot inner).observe cursor event memory =
      .ok (fallingEdgeStep (memory.registers.get slot).observed observed).2 { between with
        registers := between.registers.set slot { memory.registers.get slot with
          observed := (fallingEdgeStep (memory.registers.get slot).observed observed).1 } } := by
  simp only [observe, bind, EStateM.bind, remembered, remember, ran, pure, EStateM.pure]

theorem observe_nextLine {first last : Nat}
    (ran : inner.observe cursor event memory = .ok observed between)
    (begins : cursor.lineAt event.start = .ok first)
    (ends : cursor.lineAt (max (event.start : Int) (event.stop - 1)) = .ok last) :
    (nextLine slot inner).observe cursor event memory =
      .ok ((memory.registers.get slot).line.step observed first last).2 { between with
        registers := between.registers.set slot { memory.registers.get slot with
          line := ((memory.registers.get slot).line.step observed first last).1 } } := by
  simp only [observe, bind, EStateM.bind, remembered, remember, ran, begins, ends, ofExcept, pure,
    EStateM.pure]

/-- No slots but these were written. -/
def Untouched (slots : List Slot) (before after : Memory World) : Prop :=
  ∀ slot, slot ∉ slots → after.registers.get slot = before.registers.get slot

theorem Untouched.trans {slots : List Slot} {before middle after : Memory World}
    (first : Untouched slots before middle) (second : Untouched slots middle after) :
    Untouched slots before after := by
  intro slot outside
  rw [second slot outside, first slot outside]

def checks : Matcher World → List (Predicate World)
  | always | heading _ | foreign _ => []
  | predicate check => [check]
  | both left right => left.checks ++ right.checks
  | oneShot _ inner | fallingEdge _ inner | nextLine _ inner => inner.checks

/-- However it ends, asking a tree does no more than its checks do and writing its slots does. -/
theorem observe_keeps {relation : Memory World → Memory World → Prop}
    (refl : ∀ memory, relation memory memory)
    (trans : ∀ {first second third}, relation first second → relation second third →
      relation first third) (matcher : Matcher World)
    (checked : ∀ p ∈ matcher.checks, Keeps relation (check p cursor))
    (writes : ∀ slot ∈ matcher.slots, ∀ cell, Keeps relation (remember slot cell : Watch World Unit)) :
    Keeps relation (matcher.observe cursor event) := by
  have reads (slot : Slot) : Keeps relation (remembered slot : Watch World Cell) := refl
  have answers (answer : Bool) : Keeps relation (pure answer : Watch World Bool) := refl
  have lines (given : Except Fault Nat) : Keeps relation (ofExcept given : Watch World Nat) := by
    intro memory
    cases given <;> exact refl memory
  have goes {α β : Type} {first : Watch World α} {next : α → Watch World β}
      (kept : Keeps relation first) (keptNext : ∀ middle, Keeps relation (next middle)) :
      Keeps relation (first >>= next) := @Keeps.bind _ _ _ relation trans _ _ kept keptNext
  induction matcher with
  | always | heading | foreign => exact refl
  | predicate p => exact checked p List.mem_cons_self
  | both left right ihLeft ihRight =>
    have keptLeft := ihLeft (fun p member => checked p (List.mem_append_left _ member))
      fun slot member => writes slot (List.mem_append_left _ member)
    have keptRight := ihRight (fun p member => checked p (List.mem_append_right _ member))
      fun slot member => writes slot (List.mem_append_right _ member)
    exact goes keptLeft fun _ => goes keptRight fun _ => answers _
  | oneShot slot inner ih =>
    have own := writes slot List.mem_cons_self
    have within := ih checked fun slot member => writes slot (List.mem_cons_of_mem _ member)
    refine goes (reads slot) fun cell => ?_
    cases cell.shot with
    | fired => exact answers false
    | armed => exact goes within fun _ => goes (own _) fun _ => answers _
  | fallingEdge slot inner ih =>
    have own := writes slot List.mem_cons_self
    have within := ih checked fun slot member => writes slot (List.mem_cons_of_mem _ member)
    exact goes (reads slot) fun cell => goes within fun _ => goes (own _) fun _ => answers _
  | nextLine slot inner ih =>
    have own := writes slot List.mem_cons_self
    have within := ih checked fun slot member => writes slot (List.mem_cons_of_mem _ member)
    exact goes (reads slot) fun cell => goes within fun _ => goes (lines _) fun _ =>
      goes (lines _) fun _ => goes (own _) fun _ => answers _

/-- However it ends, asking a tree writes only slots of the tree. -/
theorem observe_untouched {slots : List Slot} (matcher : Matcher World)
    (part : ∀ slot ∈ matcher.slots, slot ∈ slots) :
    Keeps (Untouched slots) (matcher.observe cursor event) := by
  refine observe_keeps (fun memory slot outside => rfl) .trans matcher ?_ ?_
  · intro p member memory slot outside
    unfold check
    split <;> rfl
  · intro slot own cell memory other outside
    apply Registers.get_set_of_ne
    rintro rfl
    exact outside (part _ own)

theorem evaluate_untouched (matcher : Matcher World) :
    Keeps (Untouched matcher.slots) (matcher.evaluate cursor) := by
  unfold evaluate
  split
  · intro memory slot outside
    rfl
  · exact observe_untouched matcher fun slot member => member

end Emend.Matcher
