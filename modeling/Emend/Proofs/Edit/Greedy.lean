import Emend.Stream.Document

/-! Which regions there are, told from the answers of the matchers alone and without a pass: the first
event at which anything starts opens a region, the next event at which its binding stops ends it, and the
search goes on from there. -/
namespace Emend

/-- What a binding answers at each event, by index. Where it has no stop matcher there are no answers to
stop at. -/
structure Rule where
  starts : Nat → Bool
  stops : Option (Nat → Bool)

/-- The events from `first` on and before `past`, for the binding at a position. -/
structure Stretch where
  position : Nat
  first : Nat
  past : Nat
  terminated : Bool := true
deriving DecidableEq, Repr

def Stretch.events (document : Document) (stretch : Stretch) : List Event :=
  (document.events.drop stretch.first).take (stretch.past - stretch.first)

/-- The least accepted index from `low` on and before `count`. -/
def leastFrom (accepts : Nat → Bool) (count low : Nat) : Option Nat :=
  (List.range' low (count - low)).find? accepts

variable {accepts : Nat → Bool} {count low index : Nat}

theorem leastFrom_eq_some : leastFrom accepts count low = some index ↔
    low ≤ index ∧ index < count ∧ accepts index = true ∧
      ∀ earlier, low ≤ earlier → earlier < index → accepts earlier = false := by
  simp only [leastFrom, List.find?_range'_eq_some, List.mem_range'_1, Bool.not_eq_true']
  constructor
  · rintro ⟨holds, ⟨lower, upper⟩, least⟩
    exact ⟨lower, by omega, holds, least⟩
  · rintro ⟨lower, upper, holds, least⟩
    exact ⟨holds, ⟨lower, by omega⟩, least⟩

theorem leastFrom_eq_none : leastFrom accepts count low = none ↔
    ∀ index, low ≤ index → index < count → accepts index = false := by
  simp only [leastFrom, List.find?_range'_eq_none, Bool.not_eq_true']
  constructor
  · intro never index lower upper
    exact never index lower (by omega)
  · intro never index lower upper
    exact never index lower (by omega)

theorem leastFrom_end (past : count ≤ low) : leastFrom accepts count low = none := by
  apply leastFrom_eq_none.mpr
  intro index lower upper
  omega

private theorem leastFrom_here (inside : low < count) (holds : accepts low = true) :
    leastFrom accepts count low = some low :=
  leastFrom_eq_some.mpr ⟨Nat.le_refl _, inside, holds, by omega⟩

private theorem leastFrom_skip (fails : accepts low = false) :
    leastFrom accepts count low = leastFrom accepts count (low + 1) := by
  by_cases inside : low < count
  · have split : count - low = count - (low + 1) + 1 := by omega
    simp only [leastFrom, split, List.range'_succ, List.find?_cons, fails]
  · rw [leastFrom_end (by omega), leastFrom_end (by omega)]

/-- The regions from the event at `low` on. Of the bindings that start at an event the first is taken.
Without a stop matcher its region is that event; otherwise it lasts until the binding stops, or to the
end, and the search goes on at the event that stopped it. -/
def greedy (rules : List Rule) (count low : Nat) : List Stretch :=
  match _opened : leastFrom (fun index => rules.any (·.starts index)) count low with
  | none => []
  | some first =>
    let position := rules.findIdx (·.starts first)
    match (rules.find? (·.starts first)).bind Rule.stops with
    | none => { position, first, past := first + 1 } :: greedy rules count (first + 1)
    | some stops =>
      match _closed : leastFrom stops count (first + 1) with
      | none => [{ position, first, past := count, terminated := false }]
      | some past => { position, first, past } :: greedy rules count past
termination_by count - low
decreasing_by
  · have bounds := leastFrom_eq_some.mp _opened
    omega
  · have bounds := leastFrom_eq_some.mp _opened
    have bounds := leastFrom_eq_some.mp _closed
    omega

/-- How a region goes on that is still open at the event at `low`, and what comes after it. -/
def ending (rules : List Rule) (count position first : Nat) (stops : Nat → Bool) (low : Nat) :
    List Stretch :=
  match leastFrom stops count low with
  | none => [{ position, first, past := count, terminated := false }]
  | some past => { position, first, past } :: greedy rules count past

variable {rules : List Rule} {rule : Rule} {stops : Nat → Bool} {position first : Nat}

theorem greedy_eq : greedy rules count low =
    match leastFrom (fun index => rules.any (·.starts index)) count low with
    | none => []
    | some first =>
      let position := rules.findIdx (·.starts first)
      match (rules.find? (·.starts first)).bind Rule.stops with
      | none => { position, first, past := first + 1 } :: greedy rules count (first + 1)
      | some stops => ending rules count position first stops (first + 1) := by
  rw [greedy]
  split
  · rename_i never
    rw [never]
  · rename_i first opened
    rw [opened]
    dsimp only
    split
    · rfl
    · rename_i stops stopping
      unfold ending
      split
      · rename_i never
        rw [never]
      · rename_i past closed
        rw [closed]

theorem greedy_end (past : count ≤ low) : greedy rules count low = [] := by
  rw [greedy_eq, leastFrom_end past]

theorem greedy_skip (quiet : rules.any (·.starts low) = false) :
    greedy rules count low = greedy rules count (low + 1) := by
  have same : leastFrom (fun index => rules.any (·.starts index)) count low =
      leastFrom (fun index => rules.any (·.starts index)) count (low + 1) := leastFrom_skip quiet
  rw [greedy_eq, same, ← greedy_eq]

/-- Events at which nothing starts open no region. -/
theorem greedy_skips {further : Nat} (onward : low ≤ further)
    (quiet : ∀ index, low ≤ index → index < further → rules.any (·.starts index) = false) :
    greedy rules count low = greedy rules count further := by
  induction onward with
  | refl => rfl
  | step onward ih =>
    rw [ih fun index lower upper => quiet index lower (Nat.lt_succ_of_lt upper)]
    exact greedy_skip (quiet _ onward (Nat.lt_succ_self _))

private theorem leastFrom_of_find (inside : low < count)
    (found : rules.find? (·.starts low) = some rule) :
    leastFrom (fun index => rules.any (·.starts index)) count low = some low := by
  apply leastFrom_here inside
  apply List.any_eq_true.mpr
  have starts := @List.find?_some _ (fun rule : Rule => rule.starts low) _ _ found
  exact ⟨rule, List.mem_of_find?_eq_some found, starts⟩

theorem greedy_single (inside : low < count) (found : rules.find? (·.starts low) = some rule)
    (single : rule.stops = none) : greedy rules count low =
      { position := rules.findIdx (·.starts low), first := low, past := low + 1 } ::
        greedy rules count (low + 1) := by
  rw [greedy_eq, leastFrom_of_find inside found]
  simp only [found, Option.bind_some, single]

theorem greedy_open (inside : low < count) (found : rules.find? (·.starts low) = some rule)
    (stopping : rule.stops = some stops) : greedy rules count low =
      ending rules count (rules.findIdx (·.starts low)) low stops (low + 1) := by
  rw [greedy_eq, leastFrom_of_find inside found]
  simp only [found, Option.bind_some, stopping]

theorem ending_end (past : count ≤ low) : ending rules count position first stops low =
    [{ position, first, past := count, terminated := false }] := by
  rw [ending, leastFrom_end past]

theorem ending_skip (goes : stops low = false) : ending rules count position first stops low =
    ending rules count position first stops (low + 1) := by
  rw [ending, ending, leastFrom_skip goes]

/-- A region goes on past all events at which its binding does not stop. -/
theorem ending_skips {further : Nat} (onward : low ≤ further)
    (goes : ∀ index, low ≤ index → index < further → stops index = false) :
    ending rules count position first stops low = ending rules count position first stops further := by
  induction onward with
  | refl => rfl
  | step onward ih =>
    rw [ih fun index lower upper => goes index lower (Nat.lt_succ_of_lt upper)]
    exact ending_skip (goes _ onward (Nat.lt_succ_self _))

theorem ending_here (inside : low < count) (closes : stops low = true) :
    ending rules count position first stops low =
      { position, first, past := low } :: greedy rules count low := by
  rw [ending, leastFrom_here inside closes]

end Emend
