import Emend.Proofs.Edit.Insertion

/-! Texts put behind events. A text is put out when the whole of its event is, and by then an earlier event
may have taken the output further than the end of this one. So each copy stands at the furthest end that the
events up to its own have, and the source comes out once around the copies, whatever way the events lie. -/
namespace Emend
variable {World : Type} {source text : Text} {document : Document} {reached limit : Nat} {spans : List Span}

/-- The furthest end of these spans; without any, the start of the source. -/
def furthestEnd : List Span → Nat
  | [] => 0
  | span :: rest => max span.stop (furthestEnd rest)

/-- Where a text comes to stand that is put behind each span: at its end, or at the furthest end of an
earlier span if that is further. -/
def trails : Nat → List Span → List Nat
  | _, [] => []
  | reached, span :: rest => max reached span.stop :: trails (max reached span.stop) rest

/-- The furthest ends of the spans up to each of them. -/
theorem trails_eq_map : trails reached spans =
    (List.range spans.length).map fun count => max reached (furthestEnd (spans.take (count + 1))) := by
  induction spans generalizing reached with
  | nil => rfl
  | cons span rest ih =>
    simp only [trails, ih, List.length_cons, List.range_succ_eq_map, List.map_cons, List.map_map,
      List.take_succ_cons, List.take_zero, furthestEnd, Nat.max_zero, Function.comp_def, Nat.succ_eq_add_one,
      Nat.max_assoc]

private theorem le_of_mem_trails : ∀ offset ∈ trails reached spans, reached ≤ offset := by
  induction spans generalizing reached with
  | nil => simp [trails]
  | cons span rest ih =>
    intro offset member
    rcases List.mem_cons.mp member with rfl | member
    · exact Nat.le_max_left ..
    · exact Nat.le_trans (Nat.le_max_left ..) (ih offset member)

private theorem trails_le (inside : reached ≤ limit) (within : ∀ span ∈ spans, span.stop ≤ limit) :
    ∀ offset ∈ trails reached spans, offset ≤ limit := by
  induction spans generalizing reached with
  | nil => simp [trails]
  | cons span rest ih =>
    obtain ⟨ends, later⟩ := List.forall_mem_cons.mp within
    have further : max reached span.stop ≤ limit := Nat.max_le.mpr ⟨inside, ends⟩
    exact List.forall_mem_cons.mpr ⟨further, ih further later⟩

/-- The copies stand in the order of the spans. -/
theorem trails_sorted : (trails reached spans).Pairwise (· ≤ ·) := by
  induction spans generalizing reached with
  | nil => exact .nil
  | cons span rest ih => exact List.pairwise_cons.mpr ⟨le_of_mem_trails, ih⟩

/-- The text stands at every end exactly when the ends do not go down. -/
theorem trails_eq_stops : trails reached spans = spans.map (·.stop) ↔
    (∀ span ∈ spans, reached ≤ span.stop) ∧
      spans.Pairwise fun earlier later => earlier.stop ≤ later.stop := by
  induction spans generalizing reached with
  | nil => simp [trails]
  | cons span rest ih =>
    simp only [trails, List.map_cons, List.cons.injEq, ih, List.forall_mem_cons, List.pairwise_cons]
    constructor
    · rintro ⟨first, later, sorted⟩
      have beyond : ∀ other ∈ rest, reached ≤ other.stop ∧ span.stop ≤ other.stop :=
        fun other member => Nat.max_le.mp (later other member)
      exact ⟨⟨by omega, fun other member => (beyond other member).1⟩,
        fun other member => (beyond other member).2, sorted⟩
    · rintro ⟨⟨first, beyond⟩, upwards, sorted⟩
      exact ⟨Nat.max_eq_right first, fun other member =>
        Nat.max_le.mpr ⟨beyond other member, upwards other member⟩, sorted⟩

/-- From what was reached on, the source before a span and what is left of the span reach to its end. -/
theorem Text.slice_span (source : Text) (reached : Nat) (span : Span) :
    source.slice reached span.start ++ source.slice (max reached span.start) span.stop =
      source.slice reached (max reached span.stop) := by
  have ordered := span.ordered
  have onward : max reached span.start ≤ max reached span.stop := by omega
  rw [← source.slice_max reached span.start, source.slice_rest,
    source.slice_append (Nat.le_max_left ..) onward]

/-- Putting a text behind what is left of each span inserts it where the spans let it trail. -/
theorem stitched_after : stitched (· ++ text) source reached spans =
    inserting source text reached (trails reached spans) := by
  induction spans generalizing reached with
  | nil => rfl
  | cons span rest ih =>
    simp only [stitched, trails, inserting, ih, ← source.slice_span reached span, List.append_assoc]

/-- The callback of `Binding.after` puts out what is left of the region and then its text. -/
theorem fills_after (text : Text) : Fills (fun region =>
    (.act (.copyTo region.span.stop) (.once (.insert text)) : Script World)) (· ++ text) := by
  intro region writer world bound within
  obtain ⟨left, copied, output⟩ := Writer.copyTo_bound bound within
  have copies : Script.onWriter (Writer.perform (.copyTo region.span.stop)) { writer, world } =
      .ok () ({ writer := left, world } : Desk World) := by
    simp only [Script.onWriter, Writer.perform, Writer.perform.step, copied]
  have inserts : (Script.once (.insert text)).run { writer := left, world } =
      .ok () ({ writer := left.insert text, world } : Desk World) := rfl
  refine ⟨left.insert text, bind_eq_ok.mpr ⟨(), _, copies, inserts⟩, ?_⟩
  rw [Writer.insert_output, output, List.append_assoc]

/-- Inserting a text after the events that a matcher accepts, those that a search with a fresh copy finds,
ends well. The copy for each of them stands at the furthest end that it and those before it have, and all
else is as it was. So every copy stands at the end of its own event exactly when these ends do not go
down. -/
theorem emended_text_eq_trailing {matcher : Matcher World} {memory : Memory World} (policy : Policy)
    (text : Text) (valid : document.Valid) (pure : matcher.Pure)
    (initial : ∀ slot ∈ matcher.slots, memory.registers.get slot = {}) :
    ∃ binding emended hits, Binding.after text (.matcher matcher) = .ok binding ∧
      (emend [binding] document policy memory).answer = .ok emended ∧
      (∀ elsewhere, ∃ left, Search.freshIndices matcher document elsewhere = .ok hits left) ∧
      let spans := document.spansAt hits
      let offsets := (List.range spans.length).map fun count => furthestEnd (spans.take (count + 1))
      emended.text = inserting document.source text 0 offsets ∧
      offsets.Pairwise (· ≤ ·) ∧ (∀ offset ∈ offsets, offset ≤ document.source.length) ∧
      (offsets = spans.map (·.stop) ↔
        spans.Pairwise fun earlier later => earlier.stop ≤ later.stop) := by
  let binding : Binding World := {
    start := matcher
    stop := none
    callback := fun region => .act (.copyTo region.span.stop) (.once (.insert text)) }
  have apart : binding.Apart := ⟨pure, by simp [binding], by simp [binding]⟩
  obtain ⟨emended, hits, answer, found, put⟩ :=
    single_text_eq_stitched policy valid apart rfl (fills_after text) initial
  have within : ∀ span ∈ document.spansAt hits, span.stop ≤ document.source.length := by
    intro span member
    obtain ⟨index, -, known⟩ := List.mem_filterMap.mp member
    obtain ⟨event, present, rfl⟩ := Option.map_eq_some_iff.mp known
    exact valid.within event (List.mem_of_getElem? present)
  have offsets : ((List.range (document.spansAt hits).length).map fun count =>
      furthestEnd ((document.spansAt hits).take (count + 1))) = trails 0 (document.spansAt hits) := by
    simp only [trails_eq_map, Nat.zero_max]
  refine ⟨binding, emended, hits, rfl, answer, found, ?_⟩
  dsimp only
  rw [offsets]
  refine ⟨put.trans stitched_after, trails_sorted, trails_le (Nat.zero_le _) within, ?_⟩
  simp [trails_eq_stops]

/-- The paragraph of `greeting` ends past the two events inside it, so their copies stand behind it too. -/
theorem greeting_text_eq_trailing : ∃ binding emended,
    Binding.after ['X'] (.matcher (.always : Matcher Unit)) = .ok binding ∧
    (emend [binding] greeting .handOver { world := () }).answer = .ok emended ∧
    (greeting.spansAt [0, 1, 2]).map (·.stop) = [3, 2, 2] ∧
    emended.text = ['H', 'i', '\n', 'X', 'X', 'X'] := by
  have valid : greeting.Valid := ⟨by decide, by decide⟩
  have pure : (Matcher.always : Matcher Unit).Pure := trivial
  have initial : ∀ slot ∈ (Matcher.always : Matcher Unit).slots,
      ({ world := () } : Memory Unit).registers.get slot = {} := fun _ _ => rfl
  obtain ⟨binding, emended, hits, given, answer, found, put, -⟩ :=
    emended_text_eq_trailing .handOver ['X'] valid pure initial
  obtain ⟨left, searched⟩ := found { world := () }
  have every : ∃ left, Search.freshIndices (.always : Matcher Unit) greeting { world := () } =
      .ok [0, 1, 2] left := ⟨_, by cbv⟩
  obtain ⟨other, every⟩ := every
  cases searched.symm.trans every
  exact ⟨binding, emended, given, answer, by cbv, put.trans (by cbv)⟩

end Emend
