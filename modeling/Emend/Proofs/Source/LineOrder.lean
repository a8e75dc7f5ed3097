import Emend.Proofs.Computation
import Emend.Source.Lines

/-! Lines start one after the other. The offset of a line is total here: a line past the last one starts
at the end of the source, and one before the first where the first does. -/
namespace Emend.Lines
variable {source : Text} {first last : Int} {offset : Nat}

/-- The offset right after a line break lies past what is before it and within the text. -/
theorem breaks_bounds {text : Text} {base : Nat} :
    ∀ start ∈ breaks text base, base < start ∧ start ≤ base + text.length := by
  fun_induction breaks text base with
  | case1 => simp
  | case2 rest base ih =>
    intro start member
    simp only [List.length_cons]
    rcases List.mem_cons.mp member with rfl | member
    · omega
    · have later := ih start member
      omega
  | case3 c rest base unpaired ends ih =>
    intro start member
    simp only [List.length_cons]
    rcases List.mem_cons.mp member with rfl | member
    · omega
    · have later := ih start member
      omega
  | case4 c rest base unpaired goes ih =>
    intro start member
    simp only [List.length_cons]
    have later := ih start member
    omega

theorem breaks_sorted (text : Text) (base : Nat) : (breaks text base).Pairwise (· < ·) := by
  fun_induction breaks text base with
  | case1 => exact .nil
  | case2 rest base ih =>
    exact .cons (fun start member => (breaks_bounds start member).1) ih
  | case3 c rest base unpaired ends ih =>
    exact .cons (fun start member => (breaks_bounds start member).1) ih
  | case4 c rest base unpaired goes ih => exact ih

theorem starts_sorted (source : Text) : (Lines.ofText source).starts.Pairwise (· < ·) :=
  .cons (fun start member => (breaks_bounds start member).1) (breaks_sorted source 0)

theorem starts_le : ∀ start ∈ (Lines.ofText source).starts, start ≤ source.length := by
  intro start member
  rcases List.mem_cons.mp member with rfl | member
  · exact Nat.zero_le _
  · have bounds := breaks_bounds start member
    omega

/-- What is found as a line's start is one of the starts, or the end of the source. -/
theorem startOf_mem {lines : Lines} (found : lines.startOf first = .ok offset) :
    offset ∈ lines.starts ∨ offset = lines.length := by
  unfold startOf at found
  split at found
  · cases found
    exact .inr rfl
  · obtain ⟨index, -, found⟩ := except_bind_eq_ok.mp found
    split at found
    · rename_i start item
      cases found
      exact .inl (List.mem_of_getElem? item)
    · cases found

/-- No line starts past the end of the source. -/
theorem startOf_le (found : (Lines.ofText source).startOf first = .ok offset) :
    offset ≤ source.length := by
  rcases startOf_mem found with member | rfl
  · exact starts_le offset member
  · exact Nat.le_refl _

def top (lines : Lines) (number : Int) : Nat :=
  (lines.starts[number.toNat]?).getD lines.length

theorem top_le : (Lines.ofText source).top first ≤ source.length := by
  unfold top
  cases found : (Lines.ofText source).starts[first.toNat]? with
  | none => exact Nat.le_refl _
  | some start => exact starts_le start (List.mem_of_getElem? found)

theorem top_mono (ordered : first ≤ last) :
    (Lines.ofText source).top first ≤ (Lines.ofText source).top last := by
  have before : first.toNat ≤ last.toNat := Int.toNat_le_toNat ordered
  cases found : (Lines.ofText source).starts[last.toNat]? with
  | none =>
    have ends : (Lines.ofText source).top last = source.length := by
      rw [top, found]
      rfl
    rw [ends]
    exact top_le
  | some bottom =>
    obtain ⟨inside, rfl⟩ := List.getElem?_eq_some_iff.mp found
    have earlier := List.getElem?_eq_getElem (Nat.lt_of_le_of_lt before inside)
    rw [top, top, found, earlier, Option.getD_some, Option.getD_some]
    rcases Nat.lt_or_eq_of_le before with less | same
    · exact Nat.le_of_lt (List.pairwise_iff_getElem.mp (starts_sorted source) _ _ _ _ less)
    · simp only [same, Nat.le_refl]

/-- An offset further on is on no earlier line. -/
theorem line_mono {lines : Lines} {further : Nat} (ordered : offset ≤ further) :
    lines.line offset ≤ lines.line further := by
  apply Nat.sub_le_sub_right
  apply List.countP_mono_left
  intro start _ before
  simp only [decide_eq_true_eq] at before ⊢
  exact Nat.le_trans before ordered

/-- An offset has a line exactly if it is within the source or at its end. -/
theorem lineAt_eq_ok_iff {offset : Int} {number : Nat} : (ofText source).lineAt offset = .ok number ↔
    (0 ≤ offset ∧ offset ≤ source.length) ∧ (ofText source).line offset.toNat = number := by
  have length : (ofText source).length = source.length := rfl
  unfold lineAt
  rw [length]
  by_cases fits : 0 ≤ offset ∧ offset ≤ source.length
  · rw [if_pos fits, Except.ok.injEq]
    exact (and_iff_right fits).symm
  · rw [if_neg fits]
    exact iff_of_false nofun fun found => fits found.1

/-- A line that does not count back from the end starts somewhere. -/
theorem startOf_total {lines : Lines} (forward : 0 ≤ first) : ∃ offset, lines.startOf first = .ok offset := by
  unfold startOf
  split
  · exact ⟨_, rfl⟩
  · rename_i inside
    have placed : Place.index first lines.starts.length .noSuchLine = .ok first.toNat := by
      unfold Place.index
      rw [if_neg (Int.not_lt.mpr forward), if_pos ⟨forward, Int.not_le.mp inside⟩]
    have there : first.toNat < lines.starts.length := by omega
    refine ⟨lines.starts[first.toNat], except_bind_eq_ok.mpr ⟨_, placed, ?_⟩⟩
    rw [List.getElem?_eq_getElem there]

/-- A line that does not count back from the end starts there. -/
theorem startOf_eq_top {lines : Lines} (forward : 0 ≤ first) (found : lines.startOf first = .ok offset) :
    offset = lines.top first := by
  unfold startOf at found
  split at found
  · rename_i past
    cases found
    have none : lines.starts[first.toNat]? = none := by
      rw [List.getElem?_eq_none_iff]
      omega
    rw [top, none]
    rfl
  · unfold Place.item at found
    obtain ⟨index, placed, found⟩ := except_bind_eq_ok.mp found
    have counted : index = first.toNat := by
      unfold Place.index at placed
      dsimp only at placed
      rw [if_neg (Int.not_lt.mpr forward)] at placed
      split at placed
      · cases placed
        rfl
      · split at placed <;> cases placed
    subst counted
    split at found
    · rename_i start there
      cases found
      rw [top, there]
      rfl
    · cases found

theorem startOf_top {lines : Lines} (forward : 0 ≤ first) : lines.startOf first = .ok (lines.top first) := by
  obtain ⟨offset, found⟩ := @startOf_total _ lines forward
  rw [found, startOf_eq_top forward found]

end Emend.Lines
