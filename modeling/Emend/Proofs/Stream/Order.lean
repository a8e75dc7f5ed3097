import Emend.Proofs.Computation
import Emend.Stream.Cursor

/-! The order of events in a document. Where both promises hold of every event no check fails, so a
cursor comes to the end whatever the events are. -/
namespace Emend

section
variable {α : Type} {items rest : List α} {item : α} {index : Nat}

/-- What comes first in a list from an index on stands at that index. -/
theorem next_of_drop (there : items.drop index = item :: rest) :
    items[index]? = some item ∧ items.drop (index + 1) = rest := by
  refine ⟨?_, ?_⟩
  · rw [← List.head?_drop, there, List.head?_cons]
  · rw [← List.tail_drop, there, List.tail_cons]

theorem drop_of_next (found : items[index]? = some item) :
    items.drop index = item :: items.drop (index + 1) := by
  rw [List.drop_eq_getElem?_toList_append, found]
  rfl

end

/-- The span lies between two offsets. -/
def Span.Within (low high : Nat) (span : Span) : Prop :=
  low ≤ span.start ∧ span.stop ≤ high

namespace Span.Within
variable {low high stop : Nat} {span : Span}

theorem point_within (within : low ≤ high) : Within low high (.point low) :=
  ⟨Nat.le_refl _, within⟩

theorem stop_le (within : Within low high span) : low ≤ span.stop :=
  Nat.le_trans within.1 span.ordered

theorem reach_within (within : Within low high span) (ends : stop ≤ high) :
    Within low high (.reach span.start stop) :=
  ⟨within.1, Nat.max_le.mpr ⟨Nat.le_trans span.ordered within.2, ends⟩⟩

end Span.Within

/-- Events in the order of their starts, which lie between two offsets, none of them past a limit. -/
structure InOrder (low high limit : Nat) (events : List Event) : Prop where
  sorted : events.Pairwise fun earlier later => earlier.start ≤ later.start
  begins : ∀ event ∈ events, low ≤ event.start ∧ event.start ≤ high
  ends : ∀ event ∈ events, event.stop ≤ limit

namespace InOrder
variable {low middle high limit : Nat} {events others : List Event} {event : Event}

theorem nil : InOrder low high limit [] :=
  ⟨.nil, by simp, by simp⟩

theorem single (within : event.span.Within low limit) (upper : event.start ≤ high) :
    InOrder low high limit [event] := by
  refine ⟨by simp, ?_, ?_⟩
  · intro found member
    cases List.mem_singleton.mp member
    exact ⟨within.1, upper⟩
  · intro found member
    cases List.mem_singleton.mp member
    exact within.2

theorem append (first : InOrder low middle limit events) (second : InOrder middle high limit others)
    (lower : low ≤ middle) (upper : middle ≤ high) : InOrder low high limit (events ++ others) := by
  refine ⟨?_, ?_, ?_⟩
  · apply List.pairwise_append.mpr
    refine ⟨first.sorted, second.sorted, ?_⟩
    intro earlier member later memberLater
    exact Nat.le_trans (first.begins earlier member).2 (second.begins later memberLater).1
  · intro event member
    rcases List.mem_append.mp member with member | member
    · have between := first.begins event member
      omega
    · have between := second.begins event member
      omega
  · intro event member
    rcases List.mem_append.mp member with member | member
    · exact first.ends event member
    · exact second.ends event member

theorem mono_bounds {lower higher further : Nat} (ordered : InOrder low high limit events)
    (lowered : lower ≤ low) (raised : high ≤ higher) (wider : limit ≤ further) :
    InOrder lower higher further events := by
  refine ⟨ordered.sorted, ?_, ?_⟩
  · intro event member
    have between := ordered.begins event member
    omega
  · intro event member
    exact Nat.le_trans (ordered.ends event member) wider

/-- An event may end elsewhere within the limit; only its start counts for the order. -/
theorem replace_event {given : Event} (ordered : InOrder low high limit (events ++ given :: others))
    (same : event.start = given.start) (within : event.stop ≤ limit) :
    InOrder low high limit (events ++ event :: others) := by
  obtain ⟨sorted, begins, ends⟩ := ordered
  simp only [List.mem_append, List.mem_cons] at begins ends
  refine ⟨?_, ?_, ?_⟩
  · simpa only [List.pairwise_append, List.pairwise_cons, List.mem_cons, forall_eq_or_imp, same]
      using sorted
  · intro found member
    rcases List.mem_append.mp member with member | member
    · exact begins found (.inl member)
    rcases List.mem_cons.mp member with rfl | member
    · rw [same]
      exact begins given (.inr (.inl rfl))
    · exact begins found (.inr (.inr member))
  · intro found member
    rcases List.mem_append.mp member with member | member
    · exact ends found (.inl member)
    rcases List.mem_cons.mp member with rfl | member
    · exact within
    · exact ends found (.inr (.inr member))

end InOrder

/-- The promises about events hold of all of them. -/
structure Document.Valid (document : Document) : Prop where
  ordered : document.events.Pairwise fun earlier later => earlier.start ≤ later.start
  within : ∀ event ∈ document.events, event.stop ≤ document.source.length

namespace Document.Valid
variable {document : Document}

theorem check_eq_ok (valid : document.Valid) (index : Nat) : document.check index = .ok () := by
  unfold check
  split
  · rfl
  · rename_i event found
    have fits : event.span.requireWithin document.source.length = .ok () := by
      have inside := valid.within event (List.mem_of_getElem? found)
      exact if_pos (Int.ofNat_le.mpr inside)
    rw [fits]
    cases index with
    | zero => rfl
    | succ before =>
      dsimp only
      split
      · rfl
      · rename_i previous foundBefore
        obtain ⟨inRange, rfl⟩ := List.getElem?_eq_some_iff.mp found
        obtain ⟨inRangeBefore, rfl⟩ := List.getElem?_eq_some_iff.mp foundBefore
        have rising := List.pairwise_iff_getElem.mp valid.ordered before (before + 1) inRangeBefore
          inRange (Nat.lt_succ_self before)
        rw [if_neg (Nat.not_lt.mpr rising)]

theorem start_eq_ok (valid : document.Valid) : Cursor.start document = .ok { document } := by
  simp only [Cursor.start, valid.check_eq_ok]

theorem advance_eq_ok (valid : document.Valid) (index : Nat) :
    Cursor.advance { document, index } =
      .ok (Cursor.next { document, index }).current (Cursor.next { document, index }) := by
  have kept : (Cursor.next { document, index }).document = document := by
    unfold Cursor.next
    split <;> rfl
  simp only [Cursor.advance, kept, valid.check_eq_ok]

/-- A cursor moves on as often as it is asked to, and stops at the end. -/
theorem advanceBy_eq_ok (valid : document.Valid) {index : Nat} (inside : index ≤ document.events.length)
    (count : Nat) : Cursor.advanceBy count { document, index } =
      .ok () { document, index := min (index + count) document.events.length } := by
  induction count generalizing index with
  | zero =>
    rw [Nat.add_zero, Nat.min_eq_left inside]
    rfl
  | succ count ih =>
    apply bind_eq_ok.mpr
    refine ⟨_, _, valid.advance_eq_ok index, ?_⟩
    by_cases ended : document.events.length ≤ index
    · have stays : Cursor.next { document, index } = { document, index } := by
        simp [Cursor.next, Cursor.atEnd, ended]
      rw [stays, ih inside]
      congr 2
      omega
    · have moves : Cursor.next { document, index } = { document, index := index + 1 } := by
        simp [Cursor.next, Cursor.atEnd, ended]
      rw [moves, ih (by omega)]
      congr 2
      omega

end Document.Valid
end Emend
