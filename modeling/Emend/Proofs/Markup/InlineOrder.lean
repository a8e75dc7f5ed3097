import Emend.Markup.Inline
import Emend.Proofs.Source.Search
import Emend.Proofs.Stream.Nesting

/-! The scan for inline tokens keeps events in order. Every extent lies ahead of where the scan stands
and within the window. An element that is held back keeps its place: when it is let go its opening event
stretches to the closing delimiter, but starts where it did. -/
namespace Emend

namespace Inline
variable {window : Window} {pos start : Nat}

namespace Window

theorem le_locate (needle : Text) : pos ≤ (window.locate needle pos).start := by
  unfold locate
  split
  · exact Nat.le_refl _
  · rename_i substance
    split
    · rename_i found hit
      have needed : needle ≠ [] := by simpa using substance
      exact (Text.find_bounds needed hit).1
    · exact Nat.le_refl _

theorem locate_ahead (needle : Text) (within : pos ≤ window.limit) :
    (window.locate needle pos).Within pos window.limit := by
  unfold locate
  by_cases empty : needle.isEmpty = true
  · rw [if_pos empty]
    exact .point_within within
  · rw [if_neg empty]
    have substance : needle ≠ [] := fun none => empty (List.isEmpty_iff.mpr none)
    cases hit : window.source.find? needle pos window.limit with
    | none => exact .point_within within
    | some found =>
      obtain ⟨lower, upper⟩ := Text.find_bounds substance hit
      exact ⟨lower, Nat.max_le.mpr ⟨by omega, upper⟩⟩

private theorem matchingParen_bounds {text : Text} {depth offset found : Nat}
    (hit : matchingParen text depth offset = some found) :
    offset ≤ found ∧ found ≤ offset + text.length := by
  induction text generalizing depth offset with
  | nil => cases hit
  | cons c rest ih =>
    have later (depth : Nat) (hit : matchingParen rest depth (offset + 1) = some found) :
        offset ≤ found ∧ found ≤ offset + (rest.length + 1) := by
      have bounds := ih hit
      omega
    unfold matchingParen at hit
    by_cases opens : c = '('
    · rw [if_pos opens] at hit
      exact later _ hit
    rw [if_neg opens] at hit
    by_cases closes : c = ')'
    · rw [if_pos closes] at hit
      by_cases outermost : depth = 1
      · rw [if_pos outermost] at hit
        cases hit
        simp only [List.length_cons]
        omega
      · rw [if_neg outermost] at hit
        exact later _ hit
    · rw [if_neg closes] at hit
      exact later _ hit

private theorem destinationEnd_le {found : Nat} (hit : window.destinationEnd start = some found) :
    found ≤ window.limit := by
  unfold destinationEnd at hit
  split at hit
  · rename_i rest slice
    have length := congrArg List.length slice
    have bounds := matchingParen_bounds hit
    simp only [Text.slice, List.length_take, List.length_cons] at length
    omega
  · obtain ⟨bracket, seen, rfl⟩ := Option.map_eq_some_iff.mp hit
    have bounds := Text.find_bounds (by simp) seen
    exact bounds.2
  · cases hit

theorem le_destinationEnd {found : Nat} (hit : window.destinationEnd start = some found) :
    start ≤ found := by
  unfold destinationEnd at hit
  split at hit
  · have bounds := matchingParen_bounds hit
    omega
  · obtain ⟨bracket, seen, rfl⟩ := Option.map_eq_some_iff.mp hit
    have bounds := Text.find_bounds (by simp) seen
    omega
  · cases hit

theorem bracketSpan_ahead (within : pos ≤ window.limit) :
    (window.bracketSpan pos).Within pos window.limit := by
  have bracket := locate_ahead [']'] within
  unfold bracketSpan
  dsimp only
  split
  · rename_i stop found
    exact bracket.reach_within (destinationEnd_le found)
  · exact bracket

private theorem codeSpan_ahead (markup : Text) (within : pos ≤ window.limit) :
    (window.codeSpan markup pos).Within pos window.limit := by
  have first := locate_ahead markup within
  have second := locate_ahead markup first.2
  unfold codeSpan
  by_cases unclosed : (window.locate markup (window.locate markup pos).stop).isEmpty = true
  · simp only [unclosed, ↓reduceIte]
    exact first
  · simp only [unclosed, Bool.false_eq_true, ↓reduceIte]
    exact first.reach_within second.2

private theorem footnoteSpan_ahead (within : pos ≤ window.limit) :
    (window.footnoteSpan pos).Within pos window.limit := by
  have mark := locate_ahead ['[', '^'] within
  have bracket := locate_ahead [']'] mark.2
  exact mark.reach_within (Nat.max_le.mpr ⟨mark.2, bracket.2⟩)

private theorem openingSpan_ahead (token : Token) (within : pos ≤ window.limit) :
    (window.openingSpan token pos).Within pos window.limit := by
  unfold openingSpan
  split <;> exact locate_ahead _ within

private theorem closingSpan_ahead (token : Token) (within : pos ≤ window.limit) :
    (window.closingSpan token pos).Within pos window.limit := by
  unfold closingSpan
  split
  · split
    · exact locate_ahead _ within
    · exact bracketSpan_ahead within
  · exact locate_ahead _ within

private theorem leaf_ahead {token : Token} {event : Event} (within : pos ≤ window.limit)
    (found : window.leaf? token pos = some event) : event.span.Within pos window.limit := by
  unfold leaf? at found
  split at found
  · split at found
    · cases found
    · cases found
      exact locate_ahead _ within
  · cases found
    exact codeSpan_ahead _ within
  · cases found
    exact locate_ahead _ within
  · cases found
    exact locate_ahead _ within
  · cases found
    exact locate_ahead _ within
  · cases found
    exact footnoteSpan_ahead within
  · cases found

/-- A token that stands alone opens and closes nothing. -/
theorem leaf?_leaf {token : Token} {event : Event} (found : window.leaf? token pos = some event) :
    event.Leaf := by
  unfold leaf? at found
  split at found
  · split at found
    · cases found
    · cases found
      exact ⟨nofun, nofun⟩
  · cases found
    exact ⟨nofun, nofun⟩
  · cases found
    exact ⟨nofun, nofun⟩
  · cases found
    exact ⟨nofun, nofun⟩
  · cases found
    exact ⟨nofun, nofun⟩
  · cases found
    exact ⟨nofun, nofun⟩
  · cases found

end Window

namespace Scan
variable {scan after : Scan} {more : List Event} {span : Span}

/-- The events that wait, those of the outermost element first. -/
def waiting (held : List Held) : List Event :=
  held.reverse.flatMap fun held => held.opening :: held.inner

/-- The events in the order in which the scan came to them, whether let go or held back. -/
def found (scan : Scan) : List Event :=
  scan.done ++ waiting scan.held

theorem waiting_cons (held : Held) (outer : List Held) :
    waiting (held :: outer) = waiting outer ++ held.opening :: held.inner := by
  simp [waiting]

theorem found_add : (scan.add more).found = scan.found ++ more := by
  unfold add found
  split
  · rename_i none
    simp [none, waiting]
  · rename_i held rest some
    simp [some, waiting_cons]

theorem add_pos : (scan.add more).pos = scan.pos := by
  unfold add
  split <;> rfl

theorem found_hold (tag : Tag) : (scan.hold tag span).found =
    scan.found ++ [{ kind := .opening, span, tag := some tag }] := by
  simp [found, hold, waiting_cons]

/-- Letting go closes the innermost element in its place. -/
theorem release_found (ran : scan.release span = .ok after) : ∃ held earlier, held ∈ scan.held ∧
    scan.found = earlier ++ held.opening :: held.inner ∧
    after.found = earlier ++ held.close span ∧ after.pos = span.stop := by
  unfold release at ran
  split at ran
  · cases ran
  · rename_i held rest some
    cases ran
    refine ⟨held, scan.done ++ waiting rest, by simp [some], ?_, found_add, add_pos⟩
    rw [found, some, waiting_cons, List.append_assoc]

/-- What closing an element keeps is kept when all are closed where the scan stopped, innermost first. -/
theorem closeAll_keeps {holds : List Event → Prop} {held : List Held} {earlier inner : List Event}
    (closes : ∀ element ∈ held, ∀ earlier inner, holds (earlier ++ element.opening :: inner) →
      holds (earlier ++ { element with inner }.close (.point pos)))
    (begun : holds (earlier ++ waiting held ++ inner)) : holds (earlier ++ closeAll pos held inner) := by
  induction held generalizing inner with
  | nil => simpa [waiting, closeAll] using begun
  | cons element outer ih =>
    apply ih fun element member => closes element (List.mem_cons_of_mem _ member)
    rw [waiting_cons] at begun
    apply closes element List.mem_cons_self
    simpa using begun

/-- What a scan from `start` has come to is in order, and starts no later than where the scan stands. -/
structure Sound (window : Window) (start : Nat) (scan : Scan) : Prop where
  begun : start ≤ scan.pos
  within : scan.pos ≤ window.limit
  ordered : InOrder start scan.pos window.limit scan.found

namespace Sound

private theorem add_sound (sound : Sound window start scan) {pos : Nat} (onward : scan.pos ≤ pos)
    (within : pos ≤ window.limit) (ordered : InOrder scan.pos pos window.limit more) :
    Sound window start ({ scan with pos }.add more) := by
  have stands : ({ scan with pos }.add more).pos = pos := add_pos
  refine ⟨?_, ?_, ?_⟩
  · rw [stands]
    exact Nat.le_trans sound.begun onward
  · rw [stands]
    exact within
  · rw [stands, found_add]
    exact sound.ordered.append ordered sound.begun onward

private theorem hold_sound (sound : Sound window start scan) (tag : Tag)
    (ahead : span.Within scan.pos window.limit) :
    Sound window start (scan.hold tag span) := by
  refine ⟨Nat.le_trans sound.begun ahead.stop_le, ahead.2, ?_⟩
  rw [found_hold]
  exact sound.ordered.append (.single ahead span.ordered) sound.begun ahead.stop_le

/-- Closing an element adds its closing event and leaves every start as it was. -/
private theorem close_ordered {held : Held} {earlier inner : List Event}
    (ordered : InOrder start pos window.limit (earlier ++ held.opening :: inner))
    (begun : start ≤ pos) (ahead : span.Within pos window.limit) :
    InOrder start span.stop window.limit (earlier ++ { held with inner }.close span) := by
  have opens : held.opening.stop ≤ window.limit := ordered.ends _ (by simp)
  have stretched : InOrder start pos window.limit (earlier ++
      { held.opening with
        span := .reach held.opening.start (max held.opening.stop span.stop) } :: inner) := by
    apply ordered.replace_event
    · rfl
    · have ends := held.opening.span.ordered
      have limit := ahead.2
      simp only [Event.stop, Event.start, Span.reach] at opens ⊢
      omega
  have closing : InOrder pos span.stop window.limit
      [{ kind := .closing, span, tag := held.opening.tag }] :=
    .single ahead span.ordered
  have joined := stretched.append closing begun ahead.stop_le
  simpa [Held.close] using joined

private theorem release_sound (sound : Sound window start scan) (ahead : span.Within scan.pos window.limit)
    (ran : scan.release span = .ok after) : Sound window start after := by
  obtain ⟨held, earlier, -, before, closed, stands⟩ := release_found ran
  have ordered := sound.ordered
  rw [before] at ordered
  refine ⟨?_, ?_, ?_⟩
  · rw [stands]
    exact Nat.le_trans sound.begun ahead.stop_le
  · rw [stands]
    exact ahead.2
  · rw [stands, closed]
    exact close_ordered ordered sound.begun ahead

end Sound

/-- A property of scans that every step keeps whose extent lies ahead of the scan and within the
window. -/
structure Kept (window : Window) (holds : Scan → Prop) : Prop where
  within : ∀ {scan : Scan}, holds scan → scan.pos ≤ window.limit
  hold : ∀ {scan : Scan} {span : Span} {token : Token} {tag : Tag}, holds scan →
    token.tag false = .ok tag → span.Within scan.pos window.limit → holds (scan.hold tag span)
  release : ∀ {scan after : Scan} {span : Span}, holds scan → span.Within scan.pos window.limit →
    scan.release span = .ok after → holds after
  leaf : ∀ {scan : Scan} {token : Token} {event : Event}, holds scan →
    event.span.Within scan.pos window.limit → window.leaf? token scan.pos = some event →
    holds ({ scan with pos := event.stop }.add [event])

namespace Kept
variable {holds : Scan → Prop}

mutual

private theorem token_holds (kept : Kept window holds) (tok : Token) {scan after : Scan} (before : holds scan)
    (ran : Scan.token window scan tok = .ok after) : holds after := by
  obtain ⟨type, element, nesting, lines, markup, content, info, hidden, attributes, label, children⟩ :=
    tok
  rw [token_eq] at ran
  cases nesting with
  | opening =>
    obtain ⟨tag, tagged, rfl⟩ := map_eq_ok.mp ran
    exact kept.hold before tagged (Window.openingSpan_ahead _ (kept.within before))
  | closing => exact kept.release before (Window.closingSpan_ahead _ (kept.within before)) ran
  | alone =>
    dsimp only at ran
    split at ran
    · obtain ⟨tag, tagged, ran⟩ := except_bind_eq_ok.mp ran
      obtain ⟨inside, walked, ran⟩ := except_bind_eq_ok.mp ran
      have held := kept.hold before tagged (Window.locate_ahead ['!', '['] (kept.within before))
      have described := tokens_hold kept children held walked
      exact kept.release described (Window.bracketSpan_ahead (kept.within described)) ran
    · split at ran
      · rename_i event found
        cases ran
        exact kept.leaf before (Window.leaf_ahead (kept.within before) found) found
      · cases ran
        exact before

theorem tokens_hold (kept : Kept window holds) (toks : List Token) {scan after : Scan} (before : holds scan)
    (ran : Scan.tokens window scan toks = .ok after) : holds after := by
  cases toks with
  | nil =>
    cases ran
    exact before
  | cons head rest =>
    unfold Scan.tokens at ran
    split at ran
    · rename_i between walked
      exact tokens_hold kept rest (token_holds kept head before walked) ran
    · cases ran

end

end Kept

theorem sound_kept (start : Nat) : Kept window (Sound window start) where
  within sound := sound.within
  hold sound _ ahead := sound.hold_sound _ ahead
  release sound ahead ran := sound.release_sound ahead ran
  leaf sound ahead _ := sound.add_sound ahead.stop_le ahead.2 (.single ahead (Span.ordered _))

end Scan

/-- The events of a block's inline tokens are in order, between the start of the scan and where it
ended, which is within the window. -/
theorem events_ordered {tokens : List Token} {found : List Event} (opens : start ≤ window.limit)
    (ran : events window start tokens = .ok (found, pos)) :
    start ≤ pos ∧ pos ≤ window.limit ∧ InOrder start pos window.limit found := by
  obtain ⟨scan, walked, result⟩ := map_eq_ok.mp ran
  cases result
  have sound := (Scan.sound_kept start).tokens_hold tokens ⟨Nat.le_refl _, opens, .nil⟩ walked
  refine ⟨sound.begun, sound.within, ?_⟩
  refine Scan.closeAll_keeps (fun element _ earlier inner ordered => ?_) ?_
  · exact Scan.Sound.close_ordered ordered sound.begun (.point_within sound.within)
  · rw [List.append_nil]
    exact sound.ordered

end Inline
end Emend
