import Mathlib.Data.List.Chain
import Emend.Proofs.Stream.Order

/-! Promises about events, kept and broken one by one. A check of an event passes exactly if both promises
about it are kept, and a document is valid exactly if all checks pass. The first check that does not pass
tells which promise was broken and where, counted from the event at which the reading began. -/
namespace Emend.Document
variable {document : Document} {index base count : Nat} {fault : Fault}

/-- The event at a position ends within the source and does not start before its predecessor. Nothing is
promised past the last event. -/
def Kept (document : Document) (index : Nat) : Prop :=
  ∀ event ∈ document.events[index]?, event.stop ≤ document.source.length ∧
    match index with
    | 0 => True
    | before + 1 => ∀ previous ∈ document.events[before]?, previous.start ≤ event.start

/-- The first events keep their promises. -/
def KeptFirst (document : Document) (count : Nat) : Prop :=
  ∀ index < count, document.Kept index

/-- The fault that tells of the first event which breaks a promise. That it ends outside the source is told
rather than that it starts before its predecessor. Positions count from `base`. -/
inductive Breach (document : Document) (base : Nat) : Fault → Prop
  | outside {index : Nat} {event : Event} (before : document.KeptFirst index)
      (found : document.events[index]? = some event) (past : document.source.length < event.stop) :
      Breach document base (.outsideSource "span" event.start event.stop document.source.length)
  | disorder {index : Nat} {previous event : Event} (counted : base ≤ index)
      (before : document.KeptFirst (index + 1)) (foundBefore : document.events[index]? = some previous)
      (found : document.events[index + 1]? = some event) (within : event.stop ≤ document.source.length)
      (back : event.start < previous.start) :
      Breach document base (.spanOrder (index + 1 - base : Nat) previous.start event.start)

section
variable {event previous : Event} {before : Nat}

private theorem check_ended (ended : document.events[index]? = none) : document.check index = .ok () := by
  unfold check
  rw [ended]

private theorem check_outside (found : document.events[index]? = some event)
    (past : document.source.length < event.stop) : document.check index =
      .error (.outsideSource "span" event.start event.stop document.source.length) := by
  have refused : event.span.requireWithin document.source.length =
      .error (.outsideSource "span" event.start event.stop document.source.length) :=
    if_neg fun fits => Nat.not_le.mpr past (Int.ofNat_le.mp fits)
  unfold check
  rw [found]
  dsimp only
  rw [refused]

private theorem check_first (found : document.events[0]? = some event)
    (within : event.stop ≤ document.source.length) : document.check 0 = .ok () := by
  have fits : event.span.requireWithin document.source.length = .ok () := if_pos (Int.ofNat_le.mpr within)
  unfold check
  rw [found]
  dsimp only
  rw [fits]

private theorem check_next (foundBefore : document.events[before]? = some previous)
    (found : document.events[before + 1]? = some event) (within : event.stop ≤ document.source.length) :
    document.check (before + 1) = if event.start < previous.start
      then .error (.spanOrder (before + 1 : Nat) previous.start event.start) else .ok () := by
  have fits : event.span.requireWithin document.source.length = .ok () := if_pos (Int.ofNat_le.mpr within)
  unfold check
  rw [found]
  dsimp only
  rw [fits]
  dsimp only
  rw [foundBefore]

end

/-- All that a check can find. -/
theorem check_verdict (document : Document) (index : Nat) :
    document.Kept index ∧ document.check index = .ok () ∨
    (∃ event, document.events[index]? = some event ∧ document.source.length < event.stop ∧
      document.check index = .error
        (.outsideSource "span" event.start event.stop document.source.length)) ∨
    ∃ before previous event, index = before + 1 ∧ document.events[before]? = some previous ∧
      document.events[index]? = some event ∧ event.stop ≤ document.source.length ∧
      event.start < previous.start ∧
      document.check index = .error (.spanOrder index previous.start event.start) := by
  cases found : document.events[index]? with
  | none =>
    refine .inl ⟨fun event given => ?_, check_ended found⟩
    cases found.symm.trans given
  | some event =>
    by_cases within : document.source.length < event.stop
    · exact .inr (.inl ⟨event, rfl, within, check_outside found within⟩)
    have within := Nat.le_of_not_lt within
    cases index with
    | zero =>
      refine .inl ⟨fun other given => ?_, check_first found within⟩
      cases found.symm.trans given
      exact ⟨within, trivial⟩
    | succ before =>
      obtain ⟨inside, -⟩ := List.getElem?_eq_some_iff.mp found
      have foundBefore : document.events[before]? = some document.events[before] :=
        List.getElem?_eq_getElem (Nat.lt_of_succ_lt inside)
      have checked := check_next foundBefore found within
      by_cases back : event.start < document.events[before].start
      · rw [if_pos back] at checked
        exact .inr (.inr ⟨before, _, event, rfl, foundBefore, rfl, within, back, checked⟩)
      rw [if_neg back] at checked
      refine .inl ⟨fun other given => ?_, checked⟩
      cases found.symm.trans given
      refine ⟨within, fun previous given => ?_⟩
      cases foundBefore.symm.trans given
      exact Nat.le_of_not_lt back

theorem check_eq_ok_iff : document.check index = .ok () ↔ document.Kept index := by
  rcases document.check_verdict index with ⟨kept, passed⟩ | ⟨event, found, past, failed⟩ |
    ⟨before, previous, event, rfl, foundBefore, found, within, back, failed⟩
  · exact iff_of_true passed kept
  · refine iff_of_false (by rw [failed]; exact nofun) fun kept => ?_
    exact absurd (kept event found).1 (Nat.not_le.mpr past)
  · refine iff_of_false (by rw [failed]; exact nofun) fun kept => ?_
    exact absurd ((kept event found).2 previous foundBefore) (Nat.not_le.mpr back)

/-- If no event breaks a promise the document is valid. -/
theorem valid_iff_kept : document.Valid ↔ ∀ index, document.Kept index := by
  constructor
  · intro valid index
    exact check_eq_ok_iff.mp (valid.check_eq_ok index)
  · intro kept
    have rising : (document.events.map Event.start).IsChain (· ≤ ·) := by
      apply List.isChain_iff_getElem.mpr
      intro index inside
      simp only [List.length_map, List.getElem_map] at inside ⊢
      exact (kept (index + 1) _ (List.getElem?_eq_getElem inside)).2 _
        (List.getElem?_eq_getElem (Nat.lt_of_succ_lt inside))
    refine ⟨List.pairwise_map.mp (List.isChain_iff_pairwise.mp rising), fun event member => ?_⟩
    obtain ⟨index, found⟩ := List.getElem?_of_mem member
    exact (kept index event found).1

theorem Valid.kept (valid : document.Valid) (index : Nat) : document.Kept index :=
  valid_iff_kept.mp valid index

/-- A cursor starts on an event that has been checked, or on none. -/
theorem start_of_kept (kept : document.Kept 0) : Cursor.start document = .ok { document } := by
  rw [Cursor.start, check_eq_ok_iff.mpr kept]

theorem start_of_check (failed : document.check 0 = .error fault) : Cursor.start document = .error fault := by
  rw [Cursor.start, failed]

theorem KeptFirst.succ (kept : document.KeptFirst index) (next : document.Kept index) :
    document.KeptFirst (index + 1) := by
  intro earlier before
  rcases Nat.lt_succ_iff_lt_or_eq.mp before with before | rfl
  · exact kept earlier before
  · exact next

theorem keptFirst_one : document.KeptFirst 1 ↔ document.Kept 0 := by
  simp [KeptFirst]

private theorem kept_of_ended (ended : document.events.length ≤ index) : document.Kept index := by
  intro event found
  cases (List.getElem?_eq_none ended).symm.trans found

/-- There is nothing left to check after the last event. -/
theorem valid_of_ended (ended : document.events.length ≤ index) (kept : document.KeptFirst (index + 1)) :
    document.Valid := by
  refine valid_iff_kept.mpr fun place => ?_
  rcases Nat.lt_or_ge place index with before | past
  · exact kept place (Nat.lt_succ_of_lt before)
  · exact kept_of_ended (ended.trans past)

/-- An event that is left keeps its promises in the document of the events that are left as it does in the
whole one; the first of them keeps them there if it does here. -/
theorem kept_dropEvents (kept : document.Kept base) :
    (document.dropEvents base).Kept index ↔ document.Kept (base + index) := by
  unfold Kept dropEvents
  simp only [List.getElem?_drop]
  cases index with
  | zero => exact iff_of_true (fun event found => ⟨(kept event found).1, trivial⟩) kept
  | succ before => exact Iff.rfl

theorem keptFirst_dropEvents (kept : document.KeptFirst (base + 1)) :
    (document.dropEvents base).KeptFirst count ↔ document.KeptFirst (base + count) := by
  have here := kept base (Nat.lt_succ_self base)
  constructor
  · intro left index before
    by_cases later : base ≤ index
    · obtain ⟨distance, rfl⟩ := Nat.exists_eq_add_of_le later
      exact (kept_dropEvents here).mp (left distance (Nat.lt_of_add_lt_add_left before))
    · exact kept index (Nat.lt_succ_of_lt (Nat.lt_of_not_le later))
  · intro whole index before
    exact (kept_dropEvents here).mpr (whole _ (Nat.add_lt_add_left before base))

/-- The first check that does not pass tells of the first event that breaks a promise. -/
theorem breach_of_check (before : document.KeptFirst index) (failed : document.check index = .error fault) :
    document.Breach 0 fault := by
  rcases document.check_verdict index with ⟨-, passed⟩ | ⟨event, found, past, verdict⟩ |
    ⟨place, previous, event, rfl, foundBefore, found, within, back, verdict⟩
  · cases failed.symm.trans passed
  · cases failed.symm.trans verdict
    exact .outside before found past
  · cases failed.symm.trans verdict
    exact .disorder (Nat.zero_le place) before foundBefore found within back

/-- In the document of the events that are left, positions count from the first of them. -/
theorem Breach.of_dropEvents (kept : document.KeptFirst (base + 1))
    (breach : (document.dropEvents base).Breach 0 fault) : document.Breach base fault := by
  have there (place : Nat) : (document.dropEvents base).events[place]? = document.events[base + place]? :=
    List.getElem?_drop
  cases breach with
  | outside before found past =>
    exact .outside ((keptFirst_dropEvents kept).mp before) ((there _).symm.trans found) past
  | @disorder index previous event _ before foundBefore found within back =>
    have same : index + 1 - 0 = base + index + 1 - base := by omega
    rw [same]
    exact .disorder (Nat.le_add_right base index) ((keptFirst_dropEvents kept).mp before)
      ((there _).symm.trans foundBefore) ((there _).symm.trans found) within back

end Emend.Document
