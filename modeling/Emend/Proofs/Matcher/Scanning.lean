import Emend.Matcher.Search
import Emend.Proofs.Lockstep
import Emend.Proofs.Stream.Order

/-! A search one event at a time. It asks at an event, stops there if this was the last match that it was
looking for, and goes on to the next event otherwise, once that has been checked. So it keeps what asking
keeps, and two searches go in lockstep if asking does. -/
namespace Emend.Search
variable {World σ τ : Type} {document : Document} {index : Nat} {left : List Event}

/-- How many matches are still looked for after an event that is a match or is none. -/
def afterMatch (hit : Bool) (limit : Option Nat) : Option Nat :=
  if hit then limit.map (· - 1) else limit

/-- A search for all matches still looks for all. -/
theorem afterMatch_none (hit : Bool) : afterMatch hit none = none := by
  cases hit <;> rfl

theorem scan_none_wanted (asks : Cursor → EStateM Fault σ Bool) :
    scan asks document left index (some 0) = pure [] := by
  cases left <;> rfl

/-- One event of a search that still looks for a match. -/
theorem scan_cons {asks : Cursor → EStateM Fault σ Bool} {limit : Option Nat} (wanted : limit ≠ some 0)
    (event : Event) (rest : List Event) : scan asks document (event :: rest) index limit = (do
      let hit ← asks { document, index }
      if hit = true ∧ limit = some 1 then return [index]
      ofExcept (document.check (index + 1))
      let later ← scan asks document rest (index + 1) (afterMatch hit limit)
      return if hit then index :: later else later) := by
  rw [scan]
  · congr 1
    funext hit
    cases hit with
    | false => simp only [Bool.false_eq_true, ↓reduceIte, false_and, afterMatch, bind_pure]
    | true => simp only [↓reduceIte, true_and, afterMatch]
  · exact wanted

/-- A search keeps what asking at its events keeps. -/
theorem scan_keeps {relation : σ → σ → Prop} (refl : ∀ state, relation state state)
    (trans : ∀ {first second third}, relation first second → relation second third →
      relation first third) {asks : Cursor → EStateM Fault σ Bool}
    (asked : ∀ cursor, Keeps relation (asks cursor)) (limit : Option Nat) :
    Keeps relation (scan asks document left index limit) := by
  have answers (found : List Nat) : Keeps relation (pure found : EStateM Fault σ (List Nat)) := refl
  have checks (given : Except Fault Unit) : Keeps relation (ofExcept given : EStateM Fault σ Unit) := by
    intro state
    cases given <;> exact refl state
  have goes {α β : Type} {first : EStateM Fault σ α} {next : α → EStateM Fault σ β}
      (kept : Keeps relation first) (keptNext : ∀ middle, Keeps relation (next middle)) :
      Keeps relation (first >>= next) := @Keeps.bind _ _ _ relation trans _ _ kept keptNext
  induction left generalizing index limit with
  | nil => exact answers []
  | cons event rest ih =>
    by_cases wanted : limit = some 0
    · rw [wanted, scan_none_wanted]
      exact answers []
    rw [scan_cons wanted]
    refine goes (asked _) fun hit => ?_
    split
    · exact answers [index]
    · exact goes (checks _) fun _ => goes (ih _) fun later => answers _

/-- Searches go in lockstep if asking does. -/
theorem scan_lockstep {states : σ → τ → Prop} {asks : Cursor → EStateM Fault σ Bool}
    {others : Cursor → EStateM Fault τ Bool}
    (asked : ∀ cursor, Lockstep Eq states (asks cursor) (others cursor)) (limit : Option Nat) :
    Lockstep Eq states (scan asks document left index limit) (scan others document left index limit) := by
  induction left generalizing index limit with
  | nil => exact .pure rfl
  | cons event rest ih =>
    by_cases wanted : limit = some 0
    · rw [wanted, scan_none_wanted, scan_none_wanted]
      exact .pure rfl
    rw [scan_cons wanted, scan_cons wanted]
    refine (asked _).bind ?_
    rintro hit _ rfl
    split
    · exact .pure rfl
    refine (Lockstep.ofExcept _).bind ?_
    rintro _ _ -
    refine (ih _).bind ?_
    rintro later _ rfl
    exact .pure rfl

variable {matcher twin : Matcher World}

/-- A matcher is asked as it is, from the first event on once that has been checked. -/
theorem indices_matcher (matcher : Matcher World) (document : Document) (limit : Option Nat) :
    indices (.matcher matcher) document limit = (do
      let cursor ← ofExcept (Cursor.start document)
      scan matcher.evaluate document document.events cursor.index limit) :=
  rfl

theorem indices_keeps {relation : Memory World → Memory World → Prop}
    (refl : ∀ memory, relation memory memory)
    (trans : ∀ {first second third}, relation first second → relation second third →
      relation first third) (asked : ∀ cursor, Keeps relation (matcher.evaluate cursor))
    (limit : Option Nat) : Keeps relation (indices (.matcher matcher) document limit) := by
  have starts : Keeps relation (ofExcept (Cursor.start document) : Watch World Cursor) := by
    intro memory
    cases Cursor.start document <;> exact refl memory
  rw [indices_matcher]
  exact @Keeps.bind _ _ _ relation trans _ _ starts fun cursor => scan_keeps refl trans asked limit

theorem indices_lockstep {states : Memory World → Memory World → Prop}
    (asked : ∀ cursor, Lockstep Eq states (matcher.evaluate cursor) (twin.evaluate cursor))
    (limit : Option Nat) : Lockstep Eq states (indices (.matcher matcher) document limit)
      (indices (.matcher twin) document limit) := by
  rw [indices_matcher, indices_matcher]
  refine (Lockstep.ofExcept _).bind ?_
  rintro cursor _ rfl
  exact scan_lockstep asked limit

end Emend.Search
