import Emend.Proofs.Edit.Progress
import Emend.Proofs.Matcher.Scanning

/-! What searches make of broken promises. A search asks at no event before it has checked that event and
all before it, so it does not matter what its matcher would say anywhere else. It fails with the fault of the
first event that breaks a promise, or it does not come to that event. -/
namespace Emend
variable {World σ : Type} {document : Document} {index : Nat} {left : List Event}

namespace Search

/-- The questions are the same wherever they are put at an event that keeps its promises, as all before it
do. -/
def SameWhereKept (document : Document) (asks others : Cursor → EStateM Fault σ Bool) : Prop :=
  ∀ index, document.KeptFirst (index + 1) → asks { document, index } = others { document, index }

/-- There is an answer at every event that keeps its promises, as all before it do. -/
def Answered (document : Document) (asks : Cursor → EStateM Fault σ Bool) : Prop :=
  ∀ index, document.KeptFirst (index + 1) → ∀ state, ∃ answer after,
    asks { document, index } state = .ok answer after

section
variable {asks others : Cursor → EStateM Fault σ Bool}

/-- A search does not depend on what it would be told where it must not ask. -/
theorem scan_congr (alike : SameWhereKept document asks others) (kept : document.KeptFirst (index + 1))
    (limit : Option Nat) : scan asks document left index limit = scan others document left index limit := by
  induction left generalizing index limit with
  | nil => rfl
  | cons event rest ih =>
    by_cases wanted : limit = some 0
    · rw [wanted, scan_none_wanted, scan_none_wanted]
    rw [scan_cons wanted, scan_cons wanted, alike index kept]
    congr 1
    funext hit
    split
    · rfl
    cases checked : document.check (index + 1) with
    | error fault => rfl
    | ok => rw [ih (kept.succ (Document.check_eq_ok_iff.mp checked))]

/-- The matches that a search finds keep their promises, as all events before them do. -/
private theorem scan_found {limit : Option Nat} {state after : σ} {found : List Nat}
    (kept : document.KeptFirst (index + 1))
    (ran : scan asks document left index limit state = .ok found after) :
    ∀ place ∈ found, document.KeptFirst (place + 1) := by
  induction left generalizing index limit state found with
  | nil =>
    cases ran
    simp
  | cons event rest ih =>
    by_cases wanted : limit = some 0
    · rw [wanted, scan_none_wanted] at ran
      cases ran
      simp
    rw [scan_cons wanted] at ran
    obtain ⟨hit, between, asked, ran⟩ := bind_eq_ok.mp ran
    split at ran
    · cases ran
      simpa using kept
    obtain ⟨_, _, checked, ran⟩ := bind_eq_ok.mp ran
    obtain ⟨passed, rfl⟩ := ofExcept_eq_ok.mp checked
    obtain ⟨later, _, goes, done⟩ := bind_eq_ok.mp ran
    obtain ⟨rfl, rfl⟩ := pure_eq_ok.mp done
    have rest := ih (kept.succ (Document.check_eq_ok_iff.mp passed)) goes
    cases hit with
    | false => exact rest
    | true =>
      intro place member
      rcases List.mem_cons.mp member with rfl | member
      · exact kept
      · exact rest place member

/-- A search whose questions are answered fails only where a promise is broken. If it looks for all matches
it comes to every event, so it ends well only if no promise is broken. -/
private theorem scan_meets (answered : Answered document asks) (there : document.events.drop index = left)
    (kept : document.KeptFirst (index + 1)) (limit : Option Nat) (state : σ) :
    Meets (scan asks document left index limit) state (fun _ _ => limit = none → document.Valid)
      fun fault _ => document.Breach 0 fault := by
  induction left generalizing index limit state with
  | nil =>
    exact .of_ok rfl fun _ => Document.valid_of_ended (List.drop_eq_nil_iff.mp there) kept
  | cons event rest ih =>
    obtain ⟨-, later⟩ := next_of_drop there
    by_cases wanted : limit = some 0
    · rw [wanted, scan_none_wanted]
      exact .of_ok rfl nofun
    rw [scan_cons wanted]
    obtain ⟨hit, between, asked⟩ := answered index kept state
    refine .of_eq (bind_of_ok asked) ?_
    split
    · rename_i last
      exact .of_ok rfl fun unlimited => nomatch unlimited.symm.trans last.2
    cases checked : document.check (index + 1) with
    | error fault => exact .of_error rfl (Document.breach_of_check kept checked)
    | ok =>
      refine .of_eq rfl ?_
      refine (ih later (kept.succ (Document.check_eq_ok_iff.mp checked)) _ _).bind ?_
      intro found after comes
      exact .of_ok rfl fun unlimited => comes (unlimited ▸ afterMatch_none hit)

end

variable {matcher twin start stop : Matcher World} {fault : Fault} {memory after : Memory World}

/-- A search asks once the first event has been checked, and not at all if that fails. -/
theorem indices_of_kept (kept : document.Kept 0) (matcher : Matcher World) (limit : Option Nat) :
    indices (.matcher matcher) document limit =
      scan matcher.evaluate document document.events 0 limit := by
  rw [indices_matcher, Document.start_of_kept kept]
  rfl

theorem indices_of_check (failed : document.check 0 = .error fault) (matcher : Matcher World)
    (limit : Option Nat) : indices (.matcher matcher) document limit = throw fault := by
  rw [indices_matcher, Document.start_of_check failed]
  rfl

theorem indices_congr (same : SameWhereKept document matcher.evaluate twin.evaluate)
    (limit : Option Nat) : indices (.matcher matcher) document limit =
      indices (.matcher twin) document limit := by
  cases checked : document.check 0 with
  | error fault => rw [indices_of_check checked, indices_of_check checked]
  | ok =>
    have kept := Document.check_eq_ok_iff.mp checked
    rw [indices_of_kept kept, indices_of_kept kept]
    exact scan_congr same (Document.keptFirst_one.mpr kept) limit

private theorem indices_found {limit : Option Nat} {found : List Nat}
    (ran : indices (.matcher matcher) document limit memory = .ok found after) :
    ∀ place ∈ found, document.KeptFirst (place + 1) := by
  cases checked : document.check 0 with
  | error fault =>
    rw [indices_of_check checked] at ran
    cases ran
  | ok =>
    have kept := Document.check_eq_ok_iff.mp checked
    rw [indices_of_kept kept] at ran
    exact scan_found (Document.keptFirst_one.mpr kept) ran

/-- A matcher whose checks do not fail answers at every event that keeps its promises. -/
theorem answered_of_quiet (quiet : matcher.Quiet document) : Answered document matcher.evaluate :=
  fun index kept memory => matcher.evaluate_answers (kept index (Nat.lt_succ_self index)) quiet memory

theorem indices_meets (quiet : matcher.Quiet document) (limit : Option Nat) (memory : Memory World) :
    Meets (indices (.matcher matcher) document limit) memory (fun _ _ => limit = none → document.Valid)
      fun fault _ => document.Breach 0 fault := by
  cases checked : document.check 0 with
  | error fault =>
    rw [indices_of_check checked]
    exact .of_error rfl (Document.breach_of_check (fun _ before => absurd before (Nat.not_lt_zero _)) checked)
  | ok =>
    have kept := Document.check_eq_ok_iff.mp checked
    rw [indices_of_kept kept]
    exact scan_meets (answered_of_quiet quiet) List.drop_zero (Document.keptFirst_one.mpr kept) limit memory

theorem first_congr (same : SameWhereKept document matcher.evaluate twin.evaluate) :
    first (.matcher matcher) document = first (.matcher twin) document := by
  rw [first, first, indices_congr same]

/-- The first match keeps its promises, as all events before it do. -/
theorem first_found {place : Nat}
    (ran : first (.matcher matcher) document memory = .ok (some place) after) :
    document.KeptFirst (place + 1) := by
  obtain ⟨found, _, searched, done⟩ := bind_eq_ok.mp ran
  obtain ⟨head, rfl⟩ := pure_eq_ok.mp done
  exact indices_found searched place (List.mem_of_head? head)

theorem first_meets (quiet : matcher.Quiet document) (memory : Memory World) :
    Meets (first (.matcher matcher) document) memory (fun _ _ => True)
      fun fault _ => document.Breach 0 fault :=
  (indices_meets quiet (some 1) memory).bind fun _ _ _ => .of_ok rfl trivial

/-- The search for the end of a stretch asks at no event that breaks a promise, and after none. -/
theorem stretch_congr {startTwin stopTwin : Matcher World}
    (same : SameWhereKept document start.evaluate startTwin.evaluate)
    (sameAfter : ∀ place index, document.KeptFirst (place + index + 1) →
      stop.evaluate { document := document.dropEvents place, index } =
        stopTwin.evaluate { document := document.dropEvents place, index }) :
    stretch (.matcher start) (.matcher stop) document =
      stretch (.matcher startTwin) (.matcher stopTwin) document := by
  funext memory
  rw [stretch, stretch, first_congr same]
  cases ran : first (.matcher startTwin) document memory with
  | error fault between => rw [bind_of_error ran, bind_of_error ran]
  | ok found between =>
    rw [bind_of_ok ran, bind_of_ok ran]
    cases found with
    | none => rfl
    | some place =>
      have kept := first_found ran
      have sameLeft : SameWhereKept (document.dropEvents place) stop.evaluate stopTwin.evaluate :=
        fun index keptLeft => sameAfter place index ((Document.keptFirst_dropEvents kept).mp keptLeft)
      dsimp only
      rw [first_congr sameLeft]

/-- The fault that tells of the first event which breaks a promise, where a stretch is looked for. Positions
count from the first event of the document until the start is found, and from the start after that. -/
inductive StretchBreach (document : Document) (start : Matcher World) (memory : Memory World) (fault : Fault) :
    Prop
  | begins (breach : document.Breach 0 fault) : StretchBreach document start memory fault
  | ends {place : Nat} {after : Memory World}
      (found : first (.matcher start) document memory = .ok (some place) after)
      (breach : document.Breach place fault) : StretchBreach document start memory fault

theorem stretch_meets (quiet : start.Quiet document)
    (quietAfter : ∀ place, stop.Quiet (document.dropEvents place)) (memory : Memory World) :
    Meets (stretch (.matcher start) (.matcher stop) document) memory (fun _ _ => True)
      fun fault _ => StretchBreach document start memory fault := by
  have begins := (first_meets quiet memory).tells_run.mono (fun _ _ ran => ran)
    fun _ _ => @StretchBreach.begins _ document start memory _
  refine begins.bind ?_
  intro found between ran
  cases found with
  | none => exact .of_ok rfl trivial
  | some place =>
    have ends := (first_meets (quietAfter place) between).mono (fun _ _ ended => ended)
      fun _ _ breach => StretchBreach.ends ran (breach.of_dropEvents (first_found ran))
    refine ends.bind ?_
    intro last after _
    cases last <;> exact .of_ok rfl trivial

end Search
end Emend
