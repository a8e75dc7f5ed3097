import Mathlib
import Emend.Text

/-! What a search finds: the first place of its window at which the needle stands whole. It finds none only
where there is none. -/
namespace Emend.Text
variable {text needle : Text} {offset start limit found place : Nat}

/-- The needle stands whole at a place of a window. -/
structure Occurs (text needle : Text) (start limit place : Nat) : Prop where
  begins : start ≤ place
  ends : place + needle.length ≤ limit
  stands : text.slice place (place + needle.length) = needle

theorem seek_stands (hit : seek needle text offset = some found) :
    needle <+: text.drop (found - offset) := by
  induction text generalizing offset with
  | nil =>
    simp only [seek] at hit
    split at hit
    · rename_i empty
      rw [List.isEmpty_iff.mp empty]
      exact List.nil_prefix
    · cases hit
  | cons c rest ih =>
    simp only [seek] at hit
    split at hit
    · rename_i fits
      cases hit
      rw [Nat.sub_self, List.drop_zero]
      exact List.isPrefixOf_iff_prefix.mp fits
    · have later := seek_bounds hit
      have past : found - offset = found - (offset + 1) + 1 := by omega
      rw [past, List.drop_succ_cons]
      exact ih hit

private theorem seek_first (hit : seek needle text offset = some found) (earlier : offset + place < found) :
    ¬ needle <+: text.drop place := by
  induction text generalizing offset place with
  | nil =>
    simp only [seek] at hit
    split at hit
    · cases hit
      omega
    · cases hit
  | cons c rest ih =>
    simp only [seek] at hit
    split at hit
    · cases hit
      omega
    · rename_i misses
      cases place with
      | zero => exact fun stands => misses (List.isPrefixOf_iff_prefix.mpr stands)
      | succ place =>
        rw [List.drop_succ_cons]
        exact ih hit (by omega)

theorem seek_never (missed : seek needle text offset = none) (place : Nat) :
    ¬ needle <+: text.drop place := by
  induction text generalizing offset place with
  | nil =>
    simp only [seek] at missed
    split at missed
    · cases missed
    · rename_i substance
      intro stands
      rw [List.drop_nil, List.prefix_nil] at stands
      exact substance (List.isEmpty_iff.mpr stands)
  | cons c rest ih =>
    simp only [seek] at missed
    split at missed
    · cases missed
    · rename_i misses
      cases place with
      | zero => exact fun stands => misses (List.isPrefixOf_iff_prefix.mpr stands)
      | succ place =>
        rw [List.drop_succ_cons]
        exact ih missed place

/-- What is found stands whole before the limit. -/
theorem find_bounds (substance : needle ≠ []) (hit : text.find? needle start limit = some found) :
    start ≤ found ∧ found + needle.length ≤ limit := by
  have bounds := seek_bounds hit
  have length := List.length_pos_iff.mpr substance
  simp only [List.length_drop, List.length_take] at bounds
  omega

theorem find_text (hit : text.find? needle start limit = some found) :
    text.slice found (found + needle.length) = needle := by
  have lower := (seek_bounds hit).1
  have stands := seek_stands hit
  have there : start + (found - start) = found := by omega
  rw [List.drop_drop, there] at stands
  have whole := List.prefix_iff_eq_take.mp (stands.trans ((List.take_prefix limit text).drop found))
  rw [slice, Nat.add_sub_cancel_left]
  exact whole.symm

/-- A needle that stands in the window stands in what is searched. -/
theorem Occurs.needle_stands (occurs : text.Occurs needle start limit place) :
    needle <+: ((text.take limit).drop start).drop (place - start) := by
  obtain ⟨begins, ends, stands⟩ := occurs
  have there : start + (place - start) = place := by omega
  have short : needle.length ≤ limit - place := by omega
  rw [slice, Nat.add_sub_cancel_left] at stands
  rw [List.drop_drop, there, List.drop_take, ← stands]
  exact List.take_prefix_take_left short

/-- A search finds the first place in its window at which the needle stands. -/
theorem find_first (substance : needle ≠ []) (hit : text.find? needle start limit = some found) :
    text.Occurs needle start limit found ∧
    ∀ place, text.Occurs needle start limit place → found ≤ place := by
  obtain ⟨begins, ends⟩ := find_bounds substance hit
  refine ⟨⟨begins, ends, find_text hit⟩, ?_⟩
  intro place occurs
  by_contra earlier
  have before : start + (place - start) < found := by
    have begins := occurs.begins
    omega
  exact seek_first hit before occurs.needle_stands

theorem find_never (missed : text.find? needle start limit = none) (place : Nat) :
    ¬ text.Occurs needle start limit place :=
  fun occurs => seek_never missed _ occurs.needle_stands

end Emend.Text
