import Mathlib
import Emend.Proofs.Markup.Elements

/-! The leaves of inline tokens never share source text. A scan looks for each leaf from where it has come
to, and goes on at the leaf's end; what it holds back meanwhile are opening events, and closing those moves
no leaf. The scan for the next inline token starts where everything so far has been consumed, so the same
holds across all of them, however their lines overlap. -/
namespace Emend

/-- An event that is looked for by a text stands where the source has that text, or is empty. -/
structure Event.Literal (source : Text) (event : Event) : Prop where
  words : event.kind = .text ∨ event.kind = .html →
    event.span.isEmpty = true ∨ event.span.text source = event.text
  breaks : event.kind = .softBreak ∨ event.kind = .hardBreak →
    event.span.isEmpty = true ∨ event.span.text source = ['\n']

instance (event : Event) : Decidable event.Leaf :=
  inferInstanceAs (Decidable (_ ∧ _))

def leaves (events : List Event) : List Event :=
  events.filter fun event => event.Leaf

theorem leaves_append (events others : List Event) :
    leaves (events ++ others) = leaves events ++ leaves others :=
  List.filter_append ..

theorem leaves_cons_of_opening {event : Event} {events : List Event} (opens : event.kind = .opening) :
    leaves (event :: events) = leaves events :=
  List.filter_cons_of_neg (by simp [Event.Leaf, opens])

/-- Events that stand between two offsets, each of them after all before it, and say what the source says
there. -/
structure Separate (source : Text) (low high : Nat) (events : List Event) : Prop where
  apart : events.Pairwise fun earlier later => earlier.stop ≤ later.start
  begins : ∀ event ∈ events, low ≤ event.start
  ends : ∀ event ∈ events, event.stop ≤ high
  literal : ∀ event ∈ events, event.Literal source

namespace Separate
variable {source : Text} {low middle high : Nat} {events others : List Event} {event : Event}

theorem nil : Separate source low high [] :=
  ⟨.nil, by simp, by simp, by simp⟩

theorem single (within : event.span.Within low high) (literal : event.Literal source) :
    Separate source low high [event] := by
  refine ⟨by simp, ?_, ?_, ?_⟩ <;> intro found member <;> cases List.mem_singleton.mp member
  · exact within.1
  · exact within.2
  · exact literal

theorem mono_bounds {lower higher : Nat} (separate : Separate source low high events) (lowered : lower ≤ low)
    (raised : high ≤ higher) : Separate source lower higher events :=
  ⟨separate.apart, fun event member => Nat.le_trans lowered (separate.begins event member),
    fun event member => Nat.le_trans (separate.ends event member) raised, separate.literal⟩

theorem append (first : Separate source low middle events) (second : Separate source middle high others)
    (lower : low ≤ middle) (upper : middle ≤ high) : Separate source low high (events ++ others) := by
  have firstWide := first.mono_bounds (Nat.le_refl _) upper
  have secondWide := second.mono_bounds lower (Nat.le_refl _)
  refine ⟨?_, ?_, ?_, ?_⟩
  · refine List.pairwise_append.mpr ⟨first.apart, second.apart, fun earlier member later memberLater => ?_⟩
    exact Nat.le_trans (first.ends earlier member) (second.begins later memberLater)
  · exact List.forall_mem_append.mpr ⟨firstWide.begins, secondWide.begins⟩
  · exact List.forall_mem_append.mpr ⟨firstWide.ends, secondWide.ends⟩
  · exact List.forall_mem_append.mpr ⟨first.literal, second.literal⟩

end Separate

namespace Inline
variable {window : Window} {pos start : Nat}

namespace Window

theorem locate_text (needle : Text) (pos : Nat) : (window.locate needle pos).isEmpty = true ∨
    (window.locate needle pos).text window.source = needle := by
  unfold locate
  split
  · exact .inl (by simp [Span.isEmpty, Span.point])
  · split
    · rename_i found hit
      have ends : max found (found + needle.length) = found + needle.length := by omega
      right
      change window.source.slice found (max found (found + needle.length)) = needle
      rw [ends]
      exact Text.find_text hit
    · exact .inl (by simp [Span.isEmpty, Span.point])

private theorem leaf?_literal {token : Token} {event : Event} (found : window.leaf? token pos = some event) :
    event.Literal window.source := by
  unfold leaf? at found
  split at found
  · split at found
    · cases found
    · cases found
      exact ⟨fun _ => locate_text token.content pos, by simp⟩
  · cases found
    exact ⟨by simp, by simp⟩
  · cases found
    exact ⟨fun _ => locate_text token.content pos, by simp⟩
  · cases found
    exact ⟨by simp, fun _ => locate_text ['\n'] pos⟩
  · cases found
    exact ⟨by simp, fun _ => locate_text ['\n'] pos⟩
  · cases found
    exact ⟨by simp, by simp⟩
  · cases found

end Window

private theorem Held.leaves_close {held : Held} {span : Span} (opens : held.opening.kind = .opening) :
    leaves (held.close span) = leaves held.inner := by
  have closing : leaves (held.inner ++ [{ kind := .closing, span, tag := held.opening.tag }]) =
      leaves held.inner := by
    rw [leaves_append]
    simp [leaves, Event.Leaf]
  let stretched : Event :=
    { held.opening with span := .reach held.opening.start (max held.opening.stop span.stop) }
  have same : stretched.kind = .opening := opens
  exact (leaves_cons_of_opening same).trans closing

namespace Scan
variable {scan after : Scan} {span : Span}

/-- The leaves that a scan from `start` has come to are separate. -/
structure Parted (window : Window) (start : Nat) (scan : Scan) : Prop where
  nested : Nested window scan
  begun : start ≤ scan.pos
  separate : Separate window.source start scan.pos (leaves scan.found)

private theorem leaves_found_release (opens : ∀ held ∈ scan.held, held.opening.kind = .opening)
    (ran : scan.release span = .ok after) :
    after.pos = span.stop ∧ leaves after.found = leaves scan.found := by
  obtain ⟨held, earlier, member, before, closed, stands⟩ := release_found ran
  have kind := opens held member
  refine ⟨stands, ?_⟩
  rw [closed, before, leaves_append, leaves_append, Held.leaves_close kind, leaves_cons_of_opening kind]

private theorem parted_kept (start : Nat) : Kept window (Parted window start) where
  within parted := parted.nested.within
  hold {scan span token tag} parted _ ahead := by
    have same : leaves (scan.hold tag span).found = leaves scan.found := by
      rw [found_hold, leaves_append, leaves_cons_of_opening rfl]
      exact List.append_nil _
    refine ⟨parted.nested.hold_nested tag ahead, Nat.le_trans parted.begun ahead.stop_le, ?_⟩
    rw [same]
    exact parted.separate.mono_bounds (Nat.le_refl _) ahead.stop_le
  release {scan after span} parted ahead ran := by
    have opens : ∀ held ∈ scan.held, held.opening.kind = .opening :=
      fun held member => (parted.nested.held held member).opens
    obtain ⟨pos, same⟩ := leaves_found_release opens ran
    refine ⟨parted.nested.release_nested ahead ran, ?_, ?_⟩
    · rw [pos]
      exact Nat.le_trans parted.begun ahead.stop_le
    · rw [pos, same]
      exact parted.separate.mono_bounds (Nat.le_refl _) ahead.stop_le
  leaf {scan token event} parted ahead found := by
    have leaf := Window.leaf?_leaf found
    have stands : ({ scan with pos := event.stop }.add [event]).pos = event.stop := add_pos
    have more : leaves ({ scan with pos := event.stop }.add [event]).found =
        leaves scan.found ++ [event] := by
      rw [found_add, leaves_append]
      exact congrArg _ (List.filter_cons_of_pos (by simpa using leaf))
    refine ⟨(nested_kept).leaf parted.nested ahead found, ?_, ?_⟩
    · rw [stands]
      exact Nat.le_trans parted.begun ahead.stop_le
    · rw [stands, more]
      have here : event.span.Within scan.pos event.stop := ⟨ahead.1, Nat.le_refl _⟩
      exact parted.separate.append (.single here (Window.leaf?_literal found)) parted.begun ahead.stop_le

end Scan

/-- The leaves of a block's inline tokens are separate, between the start of the scan and where it ended. -/
theorem events_separate {tokens : List Token} {found : List Event} (opens : start ≤ window.limit)
    (ran : events window start tokens = .ok (found, pos)) :
    Separate window.source start pos (leaves found) := by
  obtain ⟨scan, walked, result⟩ := map_eq_ok.mp ran
  cases result
  have begun : Scan.Parted window start { pos := start } :=
    ⟨⟨opens, .nil, trivial, by simp, by simp⟩, Nat.le_refl _, .nil⟩
  have parted := (Scan.parted_kept start).tokens_hold tokens begun walked
  -- What is still held is closed where the scan ended, which moves no leaf either.
  have same : leaves scan.finish = leaves scan.found := by
    refine @Scan.closeAll_keeps scan.pos (leaves · = leaves scan.found) scan.held scan.done [] ?_ ?_
    · intro held member earlier inner same
      have kind : ({ held with inner } : Held).opening.kind = .opening :=
        (parted.nested.held held member).opens
      rw [← same, leaves_append, leaves_append, Held.leaves_close kind, leaves_cons_of_opening kind]
    · rw [List.append_nil]
      rfl
  rw [same]
  exact parted.separate

end Inline

namespace Token

def holdsInline (token : Token) : Bool :=
  token.nesting = .alone && token.type == "inline"

end Token

/-- The leaves that come from inline tokens, of events that are given token by token. -/
def inlineLeaves (parts : List (Token × List Event)) : List Event :=
  leaves ((parts.filter (·.1.holdsInline)).flatMap (·.2))

namespace Block
variable {page : Page} {progress next after : Progress} {token : Token} {tokens : List Token}

namespace Page

/-- The events that each of the tokens adds, as long as they are read. -/
def parts (page : Page) (progress : Progress) : List Token → List (Token × List Event)
  | [] => []
  | head :: rest =>
    match page.token progress head with
    | .ok next => (head, next.events.drop progress.events.length) :: page.parts next rest
    | .error _ => []

/-- What is consumed stays so. -/
theorem token_consumed_le (ran : page.token progress token = .ok next) :
    progress.consumed ≤ next.consumed := by
  cases token_reads ran with
  | untraced | leaf => exact Nat.le_refl _
  | opens opening shown ran =>
    obtain ⟨tag, -, ran⟩ := except_bind_eq_ok.mp ran
    obtain ⟨span, -, ran⟩ := except_bind_eq_ok.mp ran
    cases ran
    exact Nat.le_max_left ..
  | closes closing shown ran =>
    unfold closeBlock at ran
    split at ran
    · cases ran
    · cases ran
      exact Nat.le_max_left ..
  | inline alone type ran =>
    obtain ⟨region, -, ran⟩ := except_bind_eq_ok.mp ran
    obtain ⟨⟨events, pos⟩, -, ran⟩ := except_bind_eq_ok.mp ran
    cases ran
    exact Nat.le_max_left ..
  | code alone type ran =>
    obtain ⟨span, body, -, -, rfl⟩ := codeBlock_eq_ok.mp ran
    exact Nat.le_max_left ..

private theorem inlineTokens_separate (ran : page.inlineTokens progress token = .ok next) : ∃ added,
    next.events = progress.events ++ added ∧
    Separate page.source progress.consumed next.consumed (leaves added) := by
  obtain ⟨region, -, ran⟩ := except_bind_eq_ok.mp ran
  obtain ⟨⟨events, pos⟩, scanned, ran⟩ := except_bind_eq_ok.mp ran
  cases ran
  have separate := Inline.events_separate (Nat.le_max_left ..) scanned
  refine ⟨events, rfl, separate.mono_bounds ?_ (Nat.le_max_right ..)⟩
  exact Nat.le_trans (Nat.le_max_right ..) (Nat.le_max_right ..)

/-- Everything that is read, token by token. -/
theorem parts_eq (ran : page.tokens progress tokens = .ok after) :
    (page.parts progress tokens).map (·.1) = tokens ∧
    after.events = progress.events ++ (page.parts progress tokens).flatMap (·.2) := by
  induction tokens generalizing progress with
  | nil =>
    cases ran
    simp [parts]
  | cons head rest ih =>
    unfold Page.tokens at ran
    split at ran
    · rename_i next read
      obtain ⟨tokens, events⟩ := ih ran
      obtain ⟨added, more⟩ := tokens_events (tokens_single_eq_ok.mpr read)
      have same : next.events.drop progress.events.length = added := by
        rw [← more, List.drop_left]
      unfold parts
      simp only [read, List.map_cons, List.flatMap_cons, same]
      refine ⟨by rw [tokens], ?_⟩
      rw [events, ← more, List.append_assoc]
    · cases ran

private theorem parts_separate (ran : page.tokens progress tokens = .ok after) :
    progress.consumed ≤ after.consumed ∧
    Separate page.source progress.consumed after.consumed (inlineLeaves (page.parts progress tokens)) := by
  induction tokens generalizing progress with
  | nil =>
    cases ran
    exact ⟨Nat.le_refl _, .nil⟩
  | cons head rest ih =>
    unfold Page.tokens at ran
    split at ran
    · rename_i next read
      obtain ⟨onward, later⟩ := ih ran
      have before := token_consumed_le read
      refine ⟨Nat.le_trans before onward, ?_⟩
      unfold parts inlineLeaves
      simp only [read]
      cases inline : head.holdsInline with
      | false =>
        rw [List.filter_cons_of_neg (by simp [inline])]
        exact later.mono_bounds before (Nat.le_refl _)
      | true =>
        rw [List.filter_cons_of_pos (by simpa using inline), List.flatMap_cons, leaves_append]
        simp only [Token.holdsInline, Bool.and_eq_true, decide_eq_true_eq, beq_iff_eq] at inline
        obtain ⟨alone, type⟩ := inline
        have holds : page.inlineTokens progress head = .ok next := by
          rw [← read]
          simp only [Page.token, alone, type]
        obtain ⟨added, more, separate⟩ := inlineTokens_separate holds
        rw [more, List.drop_left]
        exact separate.append later before onward
    · cases ran

end Page
end Block

def Event.parts (source : Text) (tokens : List Token) : List (Token × List Event) :=
  Block.Page.parts { source, lines := .ofText source } {} tokens

/-- Each leaf that comes from inline tokens stands after all such leaves before it, whatever lines the
tokens claim, and covers its own text or a line feed where it covers anything. The parts that are looked at
are the events token by token, and all events are in them. -/
theorem inline_leaves_separate {source : Text} {tokens : List Token} {events : List Event}
    (read : Event.ofTokens source tokens = .ok events) :
    let parts := Event.parts source tokens
    parts.map (·.1) = tokens ∧ parts.flatMap (·.2) = events ∧
    (inlineLeaves parts).Pairwise (fun earlier later => earlier.stop ≤ later.start) ∧
    ∀ leaf ∈ inlineLeaves parts, leaf.Literal source := by
  intro parts
  obtain ⟨progress, ran, rfl⟩ := map_eq_ok.mp read
  obtain ⟨whole, all⟩ := Block.Page.parts_eq ran
  obtain ⟨-, separate⟩ := Block.Page.parts_separate ran
  exact ⟨whole, all.symm, separate.apart, separate.literal⟩

/-- Two inline tokens that claim the same lines. The second one asks for a letter that the first has left
inside an emphasis, and for one that comes after it. -/
def sharingLines : List Token := [
  { type := "inline", lines := some (0, 2), children := [
    { type := "text", content := ['a'] },
    { type := "em_open", nesting := .opening, markup := ['*'] },
    { type := "text", content := ['b'] },
    { type := "softbreak" },
    { type := "em_close", nesting := .closing, markup := ['*'] }] },
  { type := "inline", lines := some (0, 2), children := [
    { type := "text", content := ['b'] },
    { type := "text", content := ['c'] }] }]

/-- The letter that comes before is not found again, and the other one is. -/
theorem sharingLines_leaves_separate : ∃ events,
    Event.ofTokens ['a', '*', 'b', '\n', '*', 'c'] sharingLines = .ok events ∧
    events.map (fun event => (event.kind, event.start, event.stop)) = [
      (.text, 0, 1), (.opening, 1, 5), (.text, 2, 3), (.softBreak, 3, 4), (.closing, 4, 5),
      (.text, 5, 5), (.text, 5, 6)] ∧
    (inlineLeaves (Event.parts ['a', '*', 'b', '\n', '*', 'c'] sharingLines)).Pairwise
      fun earlier later => earlier.stop ≤ later.start := by
  have spans : (Event.ofTokens ['a', '*', 'b', '\n', '*', 'c'] sharingLines).map
      (·.map fun event => (event.kind, event.start, event.stop)) = .ok [
        (.text, 0, 1), (.opening, 1, 5), (.text, 2, 3), (.softBreak, 3, 4), (.closing, 4, 5),
        (.text, 5, 5), (.text, 5, 6)] := by
    cbv
  obtain ⟨events, read, spans⟩ := map_eq_ok.mp spans
  obtain ⟨-, -, separate, -⟩ := inline_leaves_separate read
  exact ⟨events, read, spans, separate⟩

end Emend
