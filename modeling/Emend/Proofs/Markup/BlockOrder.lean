import Mathlib
import Emend.Markup.Block
import Emend.Proofs.Markup.InlineOrder
import Emend.Proofs.Source.LineOrder

/-! The events of a token forest are in order and within the source, whatever the tokens say. The order
needs one thing of every rule: that it places its events no earlier than the event emitted last. The
bounds need that no line, no open block and no offset that was consumed lies past the end. -/
namespace Emend

/-- Whether events come from the token: a container's do unless it is hidden; of those that stand alone
only the type counts. -/
def Token.traced (token : Token) : Bool :=
  match token.nesting with
  | .alone => ["inline", "fence", "code_block", "hr", "html_block"].contains token.type
  | _ => !token.hidden

namespace Block
variable {page : Page} {progress after : Progress} {token : Token} {span : Span} {tag : Tag}

/-- What a token does that is read. -/
inductive Reads (page : Page) (progress : Progress) (token : Token) : Progress → Prop where
  | untraced (untraced : token.traced = false) : Reads page progress token progress
  | opens {after : Progress} (opening : token.nesting = .opening) (shown : token.hidden = false)
    (ran : page.openBlock progress token = .ok after) : Reads page progress token after
  | closes {after : Progress} (closing : token.nesting = .closing) (shown : token.hidden = false)
    (ran : page.closeBlock progress = .ok after) : Reads page progress token after
  | inline {after : Progress} (alone : token.nesting = .alone) (type : token.type = "inline")
    (ran : page.inlineTokens progress token = .ok after) : Reads page progress token after
  | code {after : Progress} (alone : token.nesting = .alone)
    (type : token.type = "fence" ∨ token.type = "code_block")
    (ran : page.codeBlock progress token = .ok after) : Reads page progress token after
  | leaf {span : Span} {event : Event} (alone : token.nesting = .alone)
    (type : token.type = "hr" ∨ token.type = "html_block")
    (found : page.lineSpan progress token = .ok span) (leaf : event.Leaf)
    (starts : event.start = span.start) (ends : event.stop ≤ span.stop) :
    Reads page progress token (progress.emit [event])

/-- The events so far are in order, and nothing that is kept lies outside the source. -/
structure Sound (page : Page) (progress : Progress) : Prop where
  indexed : page.lines = .ofText page.source
  sorted : progress.events.Pairwise fun earlier later => earlier.start ≤ later.start
  ends : ∀ event ∈ progress.events, event.stop ≤ page.source.length
  blocks : ∀ block ∈ progress.blocks, block.2.stop ≤ page.source.length
  consumed : progress.consumed ≤ page.source.length

theorem lastStart_emit {event : Event} : (progress.emit [event]).lastStart = event.start := by
  simp [Progress.lastStart, Progress.emit, List.getLast?_append]

theorem lastStart_le_of {bound : Nat} (starts : ∀ event ∈ progress.events, event.start ≤ bound) :
    progress.lastStart ≤ bound := by
  unfold Progress.lastStart
  cases found : progress.events.getLast? with
  | none => exact Nat.zero_le _
  | some last => exact starts last (List.mem_of_getLast? found)

namespace Sound

private theorem startOf_le (sound : Sound page progress) {number : Int} {offset : Nat}
    (ran : page.lines.startOf number = .ok offset) : offset ≤ page.source.length := by
  rw [sound.indexed] at ran
  exact Lines.startOf_le ran

theorem start_le_lastStart (sound : Sound page progress) :
    ∀ event ∈ progress.events, event.start ≤ progress.lastStart := by
  intro event member
  have sorted := sound.sorted
  unfold Progress.lastStart
  rcases List.eq_nil_or_concat progress.events with none | ⟨earlier, last, all⟩
  · rw [none] at member
    cases member
  · rw [List.concat_eq_append] at all
    rw [all] at member sorted ⊢
    rcases List.mem_append.mp member with member | member
    · simpa using (List.pairwise_append.mp sorted).2.2 event member last
    · cases List.mem_singleton.mp member
      simp

private theorem lastStart_le (sound : Sound page progress) : progress.lastStart ≤ page.source.length :=
  lastStart_le_of fun event member => Nat.le_trans event.span.ordered (sound.ends event member)

private theorem floor_le (sound : Sound page progress) : progress.floor ≤ page.source.length :=
  Nat.max_le.mpr ⟨sound.lastStart_le, sound.consumed⟩

private theorem emit_sound (sound : Sound page progress) {high : Nat} {more : List Event}
    (ordered : InOrder progress.lastStart high page.source.length more) :
    Sound page (progress.emit more) := by
  refine ⟨sound.indexed, ?_, ?_, sound.blocks, sound.consumed⟩
  · apply List.pairwise_append.mpr
    refine ⟨sound.sorted, ordered.sorted, ?_⟩
    intro earlier member later memberLater
    exact Nat.le_trans (sound.start_le_lastStart earlier member) (ordered.begins later memberLater).1
  · intro event member
    rcases List.mem_append.mp member with member | member
    · exact sound.ends event member
    · exact ordered.ends event member

theorem emit_single (sound : Sound page progress) (event : Event)
    (inside : event.span.Within progress.lastStart page.source.length) :
    Sound page (progress.emit [event]) :=
  sound.emit_sound (.single inside (Nat.le_refl _))

private theorem consume_sound (sound : Sound page progress) {offset : Nat}
    (within : offset ≤ page.source.length) :
    Sound page (progress.consume offset) :=
  ⟨sound.indexed, sound.sorted, sound.ends, sound.blocks, Nat.max_le.mpr ⟨sound.consumed, within⟩⟩

end Sound

namespace Page

theorem trimmedEnd_le (span : Span) : page.trimmedEnd span ≤ span.stop :=
  Nat.sub_le ..

theorem token_reads (ran : page.token progress token = .ok after) : Reads page progress token after := by
  unfold Page.token at ran
  split at ran
  · rename_i opening
    split at ran
    · rename_i hidden
      cases ran
      exact .untraced (by simp [Token.traced, opening, hidden])
    · rename_i shown
      exact .opens opening (by simpa using shown) ran
  · rename_i closing
    split at ran
    · rename_i hidden
      cases ran
      exact .untraced (by simp [Token.traced, closing, hidden])
    · rename_i shown
      exact .closes closing (by simpa using shown) ran
  · rename_i alone
    split at ran
    · rename_i type
      exact .inline alone type ran
    · rename_i type
      exact .code alone (.inl type) ran
    · rename_i type
      exact .code alone (.inr type) ran
    · rename_i type
      obtain ⟨span, found, ran⟩ := except_bind_eq_ok.mp ran
      cases ran
      exact .leaf alone (.inl type) found ⟨nofun, nofun⟩ rfl
        (Nat.max_le.mpr ⟨span.ordered, trimmedEnd_le span⟩)
    · rename_i type
      obtain ⟨span, found, ran⟩ := except_bind_eq_ok.mp ran
      cases ran
      exact .leaf alone (.inr type) found ⟨nofun, nofun⟩ rfl (Nat.le_refl _)
    · rename_i notInline notFence notCode notRule notHtml
      cases ran
      refine .untraced ?_
      simpa [Token.traced, alone] using ⟨notInline, notFence, notCode, notRule, notHtml⟩

/-- A token that no events come from leaves everything as it is. -/
theorem token_untraced (untraced : token.traced = false) (ran : page.token progress token = .ok after) :
    after = progress := by
  cases token_reads ran with
  | untraced => rfl
  | opens opening shown | closes opening shown => simp [Token.traced, opening, shown] at untraced
  | inline alone type => simp [Token.traced, alone, type] at untraced
  | code alone type | leaf alone type =>
    rcases type with type | type <;> simp [Token.traced, alone, type] at untraced

private theorem enclosingEnd_le (sound : Sound page progress) :
    page.enclosingEnd progress ≤ page.source.length := by
  unfold enclosingEnd
  split
  · exact Nat.le_refl _
  · rename_i tag span rest open_
    exact sound.blocks (tag, span) (by simp [open_])

private theorem point_floor_within (sound : Sound page progress) :
    (Span.point progress.floor).Within progress.lastStart page.source.length :=
  ⟨Nat.le_max_left .., sound.floor_le⟩

private theorem lineSpan?_within (sound : Sound page progress)
    (ran : page.lineSpan? progress token = .ok (some span)) :
    span.Within progress.lastStart page.source.length := by
  unfold lineSpan? at ran
  split at ran
  · cases ran
  · obtain ⟨top, found, ran⟩ := except_bind_eq_ok.mp ran
    obtain ⟨bottom, foundEnd, ran⟩ := except_bind_eq_ok.mp ran
    cases ran
    have upper := sound.startOf_le found
    have lower := sound.startOf_le foundEnd
    have last := sound.lastStart_le
    simp only [Span.Within, Span.reach]
    omega

private theorem lineSpan_within (sound : Sound page progress)
    (ran : page.lineSpan progress token = .ok span) :
    span.Within progress.lastStart page.source.length := by
  obtain ⟨lines, found, ran⟩ := except_bind_eq_ok.mp ran
  cases ran
  cases lines with
  | none => exact point_floor_within sound
  | some span => exact lineSpan?_within sound found

theorem headingSpan_within {markup : Text} {low high : Nat} (within : span.Within low high) :
    (page.headingSpan markup span).Within low high := by
  unfold headingSpan
  by_cases marked : ['#'].isPrefixOf markup = true
  · rw [if_pos marked]
    cases found : page.source.find? markup span.start span.stop with
    | none => exact within
    | some mark =>
      have substance : markup ≠ [] := by
        rintro rfl
        cases marked
      have bounds := Text.find_bounds substance found
      have inside : mark ≤ high := by
        have upper := within.2
        omega
      exact ⟨Nat.le_trans within.1 bounds.1, Nat.max_le.mpr ⟨inside, within.2⟩⟩
  · rw [if_neg marked]
    exact within

private theorem openingSpan_within (sound : Sound page progress)
    (ran : page.openingSpan progress token tag = .ok span) :
    span.Within progress.lastStart page.source.length := by
  obtain ⟨lines, found, ran⟩ := except_bind_eq_ok.mp ran
  cases lines with
  | none =>
    cases ran
    exact (point_floor_within sound).reach_within (enclosingEnd_le sound)
  | some span =>
    have within := lineSpan?_within sound found
    cases ran
    by_cases heading : tag.kind = .heading
    · rw [if_pos heading]
      exact headingSpan_within within
    · rw [if_neg heading]
      exact within

private theorem codeBody_within {body : Span} (sound : Sound page progress)
    (within : span.stop ≤ page.source.length) (ran : page.codeBody token span = .ok body) :
    body.Within span.start page.source.length := by
  have ordered := span.ordered
  unfold codeBody at ran
  split at ran
  · rename_i first last fence lines
    obtain ⟨top, found, ran⟩ := except_bind_eq_ok.mp ran
    have begins : (Span.point (max span.start (min top span.stop))).Within span.start
        page.source.length := ⟨Nat.le_max_left .., by simp only [Span.point]; omega⟩
    dsimp only at ran
    split at ran
    · obtain ⟨closes, -, ran⟩ := except_bind_eq_ok.mp ran
      split at ran
      · obtain ⟨bottom, foundEnd, ran⟩ := except_bind_eq_ok.mp ran
        cases ran
        exact begins.reach_within (sound.startOf_le foundEnd)
      · cases ran
        exact begins.reach_within within
    · cases ran
      exact begins.reach_within within
  · cases ran
    have trimmed := @trimmedEnd_le page span
    exact Span.Within.reach_within ⟨Nat.le_refl _, within⟩ (Nat.le_trans trimmed within)

private theorem openBlock_sound (sound : Sound page progress)
    (ran : page.openBlock progress token = .ok after) : Sound page after := by
  obtain ⟨tag, -, ran⟩ := except_bind_eq_ok.mp ran
  obtain ⟨span, found, ran⟩ := except_bind_eq_ok.mp ran
  cases ran
  have within := openingSpan_within sound found
  have emitted := sound.emit_single { kind := .opening, span, tag := some tag } within
  have held : ∀ block ∈ (tag, span) :: progress.blocks, block.2.stop ≤ page.source.length := by
    intro block member
    rcases List.mem_cons.mp member with rfl | member
    · exact within.2
    · exact sound.blocks block member
  have opened : Sound page { progress.emit [{ kind := .opening, span, tag := some tag }] with
      blocks := (tag, span) :: progress.blocks } :=
    ⟨emitted.indexed, emitted.sorted, emitted.ends, held, emitted.consumed⟩
  exact opened.consume_sound (Nat.le_trans span.ordered within.2)

private theorem emitClosing_sound (sound : Sound page progress) (within : span.stop ≤ page.source.length) :
    Sound page (page.emitClosing progress tag span) := by
  have trimmed := @trimmedEnd_le page span
  have floor := sound.floor_le
  have stop : max (page.trimmedEnd span) progress.floor ≤ page.source.length := by omega
  have last : progress.lastStart ≤ progress.floor := Nat.le_max_left ..
  have point : (Span.point (max (page.trimmedEnd span) progress.floor)).Within progress.lastStart
      page.source.length := ⟨Nat.le_trans last (Nat.le_max_right ..), stop⟩
  have emitted := sound.emit_single { kind := .closing, span := .point _, tag := some tag } point
  exact emitted.consume_sound stop

private theorem closeBlock_sound (sound : Sound page progress) (ran : page.closeBlock progress = .ok after) :
    Sound page after := by
  unfold closeBlock at ran
  split at ran
  · cases ran
  · rename_i tag span rest open_
    cases ran
    have held := sound.blocks
    rw [open_] at held
    have left : Sound page { progress with blocks := rest } :=
      ⟨sound.indexed, sound.sorted, sound.ends,
        fun block member => held block (List.mem_cons_of_mem _ member), sound.consumed⟩
    exact emitClosing_sound left (held (tag, span) List.mem_cons_self)

private theorem codeBlock_sound (sound : Sound page progress)
    (ran : page.codeBlock progress token = .ok after) :
    Sound page after := by
  obtain ⟨span, found, ran⟩ := except_bind_eq_ok.mp ran
  obtain ⟨body, foundBody, ran⟩ := except_bind_eq_ok.mp ran
  cases ran
  have within := lineSpan_within sound found
  have opened (tag : Tag) := sound.emit_single { kind := .opening, span, tag := some tag } within
  apply emitClosing_sound _ within.2
  by_cases empty : token.content.isEmpty = true
  · rw [if_pos empty]
    exact opened _
  · rw [if_neg empty]
    apply (opened _).emit_single
    rw [lastStart_emit]
    exact codeBody_within sound within.2 foundBody

theorem inlineTokens_sound (sound : Sound page progress)
    (ran : page.inlineTokens progress token = .ok after) : Sound page after := by
  obtain ⟨region, found, ran⟩ := except_bind_eq_ok.mp ran
  obtain ⟨⟨events, pos⟩, scanned, ran⟩ := except_bind_eq_ok.mp ran
  cases ran
  have floor := sound.floor_le
  have last : progress.lastStart ≤ progress.floor := Nat.le_max_left ..
  have around := enclosingEnd_le sound
  have lines : ∀ span ∈ region, span.Within progress.lastStart page.source.length := by
    rintro span rfl
    exact lineSpan?_within sound found
  have opens : max ((region.map Span.start).getD 0) progress.floor ≤ page.source.length := by
    cases region with
    | none => simpa using floor
    | some span =>
      have within := lines span rfl
      exact Nat.max_le.mpr ⟨Nat.le_trans span.ordered within.2, floor⟩
  have closes : (region.map Span.stop).getD (page.enclosingEnd progress) ≤ page.source.length := by
    cases region with
    | none => exact around
    | some span => exact (lines span rfl).2
  obtain ⟨onward, within, ordered⟩ := Inline.events_ordered (Nat.le_max_left ..) scanned
  have limit := Nat.max_le.mpr ⟨opens, closes⟩
  have emitted := ordered.mono_bounds (Nat.le_trans last (Nat.le_max_right ..)) (Nat.le_refl _) limit
  exact (sound.emit_sound emitted).consume_sound (Nat.le_trans within limit)

theorem token_sound (sound : Sound page progress) (ran : page.token progress token = .ok after) :
    Sound page after := by
  cases token_reads ran with
  | untraced => exact sound
  | opens opening shown ran => exact openBlock_sound sound ran
  | closes closing shown ran => exact closeBlock_sound sound ran
  | inline alone type ran => exact inlineTokens_sound sound ran
  | code alone type ran => exact codeBlock_sound sound ran
  | leaf alone type found leaf starts ends =>
    have within := lineSpan_within sound found
    have ahead := Nat.le_trans within.1 (Nat.le_of_eq starts.symm)
    exact sound.emit_single _ ⟨ahead, Nat.le_trans ends within.2⟩

/-- Reading some tokens and then others is reading all of them. -/
theorem tokens_append_eq_ok {first second : List Token} :
    page.tokens progress (first ++ second) = .ok after ↔ ∃ between,
      page.tokens progress first = .ok between ∧ page.tokens between second = .ok after := by
  induction first generalizing progress with
  | nil => simp [Page.tokens]
  | cons head rest ih =>
    simp only [List.cons_append, Page.tokens]
    split
    · exact ih
    · simp

theorem tokens_single_eq_ok :
    page.tokens progress [token] = .ok after ↔ page.token progress token = .ok after := by
  unfold Page.tokens
  split
  · rename_i next read
    rw [read]
    rfl
  · rename_i fault failed
    rw [failed]

/-- What every token keeps is kept by any number of them. -/
theorem tokens_keep {tokens : List Token} (holds : Progress → Prop)
    (keeps : ∀ {progress token after}, holds progress → page.token progress token = .ok after →
      holds after)
    (before : holds progress) (ran : page.tokens progress tokens = .ok after) : holds after := by
  induction tokens generalizing progress with
  | nil =>
    cases ran
    exact before
  | cons head rest ih =>
    unfold Page.tokens at ran
    split at ran
    · rename_i next read
      exact ih (keeps before read) ran
    · cases ran

end Page
end Block

/-- Events that are read from tokens start one after the other and lie within the source, whatever the
tokens say. So they make a document that a cursor reads to the end without a fault. -/
theorem events_ofTokens_valid {source : Text} {tokens : List Token} {events : List Event}
    (read : Event.ofTokens source tokens = .ok events) :
    (∀ event ∈ events, event.start ≤ event.stop ∧ event.stop ≤ source.length) ∧
    events.Pairwise (fun earlier later => earlier.start ≤ later.start) ∧
    ∃ document, Document.ofTokens source tokens = .ok document ∧
      document.source = source ∧ document.events = events ∧
      Cursor.start document = .ok { document } ∧
      ∀ count, Cursor.advanceBy count { document } =
        .ok () { document, index := min count events.length } := by
  obtain ⟨progress, ran, result⟩ := map_eq_ok.mp read
  cases result
  have begun : Block.Sound { source, lines := .ofText source } {} :=
    ⟨rfl, .nil, by simp, by simp, Nat.zero_le _⟩
  have sound := Block.Page.tokens_keep _ Block.Page.token_sound begun ran
  have valid : Document.Valid { source, events := progress.events } := ⟨sound.sorted, sound.ends⟩
  refine ⟨?_, sound.sorted, _, map_eq_ok.mpr ⟨_, read, rfl⟩, rfl, rfl, valid.start_eq_ok, ?_⟩
  · intro event member
    exact ⟨event.span.ordered, sound.ends event member⟩
  · intro count
    have moved := valid.advanceBy_eq_ok (Nat.zero_le _) count
    rwa [Nat.zero_add] at moved

/-- A heading, and a paragraph that claims the heading's line as well and holds an emphasis that nothing
closes. -/
def overlapping : List Token := [
  { type := "heading_open", element := ['h', '1'], nesting := .opening, lines := some (0, 1),
    markup := ['#'] },
  { type := "inline", lines := some (0, 1), children := [{ type := "text", content := ['a'] }] },
  { type := "heading_close", element := ['h', '1'], nesting := .closing },
  { type := "paragraph_open", nesting := .opening, lines := some (0, 9) },
  { type := "inline", children := [
    { type := "em_open", nesting := .opening, markup := ['*'] },
    { type := "text", content := ['b'] }] }]

/-- The paragraph starts at the end of the heading's content, not at the line that it claims. -/
theorem overlapping_events_valid :
    ∃ events, Event.ofTokens ['#', ' ', 'a', '\n', '*', 'b'] overlapping = .ok events ∧
      events.map Event.start = [0, 2, 3, 3, 4, 5, 6] ∧
      events.Pairwise (fun earlier later => earlier.start ≤ later.start) ∧
      ∀ event ∈ events, event.stop ≤ 6 := by
  have starts : (Event.ofTokens ['#', ' ', 'a', '\n', '*', 'b'] overlapping).map
      (·.map Event.start) = .ok [0, 2, 3, 3, 4, 5, 6] := by
    cbv
  obtain ⟨events, read, starts⟩ := map_eq_ok.mp starts
  obtain ⟨inside, sorted, -⟩ := events_ofTokens_valid read
  exact ⟨events, read, starts, sorted, fun event member => (inside event member).2⟩

end Emend
