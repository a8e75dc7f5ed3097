import Mathlib
import Emend.Proofs.Markup.BlockOrder

/-! The events of a token forest are well nested. A scan for inline tokens holds an element back until it
closes and then lets go of all of it, so what it has let go is balanced, and so is what waits inside each
element that is held back. Block by block, the opening events that wait for their closing ones are those
of the open blocks. -/
namespace Emend

namespace Inline
variable {window : Window} {scan after : Scan} {pos start : Nat} {span : Span} {more : List Event}

/-- The element waits with balanced events inside, and nothing of it reaches past the scan. -/
structure Held.Nested (pos : Nat) (held : Held) : Prop where
  opens : held.opening.kind = .opening
  balanced : Balanced held.inner
  covered : Covered (fun _ => True) [] held.inner
  ends : ∀ event ∈ held.opening :: held.inner, event.stop ≤ pos

namespace Held.Nested
variable {held : Held}

theorem mono_pos {further : Nat} (nested : held.Nested pos) (onward : pos ≤ further) :
    held.Nested further :=
  ⟨nested.opens, nested.balanced, nested.covered,
    fun event member => Nat.le_trans (nested.ends event member) onward⟩

private theorem add_nested (nested : held.Nested pos) (balanced : Balanced more)
    (covered : Covered (fun _ => True) [] more) (ends : ∀ event ∈ more, event.stop ≤ pos) :
    ({ held with inner := held.inner ++ more } : Held).Nested pos := by
  refine ⟨nested.opens, nested.balanced.append balanced, ?_, ?_⟩
  · apply nested.covered.append
    rw [nested.balanced.unclosed_eq]
    rintro _ ⟨⟩
    exact covered
  · intro event member
    rw [← List.cons_append] at member
    rcases List.mem_append.mp member with member | member
    · exact nested.ends event member
    · exact ends event member

/-- An element that is let go is balanced, its opening event reaches over all of it, and the closing
delimiter is the end of it. -/
theorem close_balanced (nested : held.Nested pos) (ahead : pos ≤ span.start) :
    Balanced (held.close span) ∧ Covered (fun _ => True) [] (held.close span) ∧
      ∀ event ∈ held.close span, event.stop ≤ span.stop := by
  have ordered := span.ordered
  have opened := nested.ends held.opening List.mem_cons_self
  have reaches : max held.opening.start (max held.opening.stop span.stop) = span.stop := by
    have inside : held.opening.start ≤ held.opening.stop := held.opening.span.ordered
    omega
  have ends : ∀ event ∈ held.inner ++ [{ kind := .closing, span, tag := held.opening.tag }],
      event.stop ≤ span.stop := by
    intro event member
    rcases List.mem_append.mp member with member | member
    · have inside := nested.ends event (List.mem_cons_of_mem _ member)
      omega
    · cases List.mem_singleton.mp member
      exact Nat.le_refl _
  refine ⟨nested.balanced.of_element nested.opens rfl rfl, ?_, ?_⟩
  · refine nested.covered.of_element nested.balanced nested.opens fun _ event member => ?_
    exact Nat.le_trans (ends event member) (Nat.le_of_eq reaches.symm)
  · intro event member
    rcases List.mem_cons.mp member with rfl | member
    · exact Nat.le_of_eq reaches
    · exact ends event member

end Held.Nested

namespace Scan

/-- What the scan has let go is balanced, and so is what waits inside each element. -/
structure Nested (window : Window) (scan : Scan) : Prop where
  within : scan.pos ≤ window.limit
  balanced : Balanced scan.done
  covered : Covered (fun _ => True) [] scan.done
  ends : ∀ event ∈ scan.done, event.stop ≤ scan.pos
  held : ∀ held ∈ scan.held, held.Nested scan.pos

namespace Nested

private theorem add_nested (nested : Nested window scan) (onward : scan.pos ≤ pos)
    (within : pos ≤ window.limit)
    (balanced : Balanced more) (covered : Covered (fun _ => True) [] more)
    (ends : ∀ event ∈ more, event.stop ≤ pos) : Nested window ({ scan with pos }.add more) := by
  have held := fun held member => (nested.held held member).mono_pos onward
  have earlier := fun event member => Nat.le_trans (nested.ends event member) onward
  unfold Scan.add
  dsimp only
  split
  · rename_i none
    refine ⟨within, nested.balanced.append balanced, ?_, ?_, by simp [none]⟩
    · apply nested.covered.append
      rw [nested.balanced.unclosed_eq]
      rintro _ ⟨⟩
      exact covered
    · intro event member
      rcases List.mem_append.mp member with member | member
      · exact earlier event member
      · exact ends event member
  · rename_i innermost rest some
    rw [some] at held
    refine ⟨within, nested.balanced, nested.covered, earlier, ?_⟩
    intro other member
    rcases List.mem_cons.mp member with rfl | member
    · exact (held innermost List.mem_cons_self).add_nested balanced covered ends
    · exact held other (List.mem_cons_of_mem _ member)

theorem hold_nested (nested : Nested window scan) (tag : Tag) (ahead : span.Within scan.pos window.limit) :
    Nested window (scan.hold tag span) := by
  have onward := ahead.stop_le
  refine ⟨ahead.2, nested.balanced, nested.covered,
    fun event member => Nat.le_trans (nested.ends event member) onward, ?_⟩
  intro held member
  rcases List.mem_cons.mp member with rfl | member
  · refine ⟨rfl, .nil, trivial, ?_⟩
    intro event member
    cases List.mem_singleton.mp member
    exact Nat.le_refl _
  · exact (nested.held held member).mono_pos onward

theorem release_nested (nested : Nested window scan) (ahead : span.Within scan.pos window.limit)
    (ran : scan.release span = .ok after) : Nested window after := by
  unfold Scan.release at ran
  split at ran
  · cases ran
  · rename_i held rest some
    cases ran
    obtain ⟨balanced, covered, ends⟩ := (nested.held held (by simp [some])).close_balanced ahead.1
    have left : Nested window { scan with held := rest } :=
      ⟨nested.within, nested.balanced, nested.covered, nested.ends,
        fun other member => nested.held other (by simp [some, member])⟩
    exact left.add_nested ahead.stop_le ahead.2 balanced covered ends

end Nested

theorem nested_kept : Kept window (Nested window) where
  within nested := nested.within
  hold nested _ ahead := nested.hold_nested _ ahead
  release nested ahead ran := nested.release_nested ahead ran
  leaf nested ahead found := by
    have leaf := Window.leaf?_leaf found
    exact nested.add_nested ahead.stop_le ahead.2 (.of_leaves (by simpa)) (.of_leaves (by simpa)) (by simp)

/-- Elements that nothing closed are closed where the scan stopped, from the inside out. -/
private theorem closeAll_nested {held : List Held} {inner : List Event}
    (nested : ∀ element ∈ held, element.Nested pos) (balanced : Balanced inner)
    (covered : Covered (fun _ => True) [] inner) (ends : ∀ event ∈ inner, event.stop ≤ pos) :
    Balanced (closeAll pos held inner) ∧ Covered (fun _ => True) [] (closeAll pos held inner) := by
  induction held generalizing inner with
  | nil => exact ⟨balanced, covered⟩
  | cons held outer ih =>
    have innermost := (nested held List.mem_cons_self).add_nested balanced covered ends
    have here : pos ≤ (Span.point pos).start := Nat.le_refl _
    obtain ⟨closed, closedCovered, closedEnds⟩ := innermost.close_balanced here
    exact ih (fun element member => nested element (List.mem_cons_of_mem _ member)) closed closedCovered
      closedEnds

end Scan

/-- The events of a block's inline tokens are balanced by themselves, and no element of them reaches
past its opening event. -/
theorem events_nested {tokens : List Token} {found : List Event} (opens : start ≤ window.limit)
    (ran : events window start tokens = .ok (found, pos)) :
    Balanced found ∧ Covered (fun _ => True) [] found := by
  obtain ⟨scan, walked, result⟩ := map_eq_ok.mp ran
  cases result
  have begun : Scan.Nested window { pos := start } := ⟨opens, .nil, trivial, by simp, by simp⟩
  have nested := Scan.nested_kept.tokens_hold tokens begun walked
  obtain ⟨balanced, covered⟩ := Scan.closeAll_nested nested.held .nil trivial (by simp)
  refine ⟨nested.balanced.append balanced, nested.covered.append ?_⟩
  rw [nested.balanced.unclosed_eq]
  rintro _ ⟨⟩
  exact covered

end Inline

/-- The level of a heading may be unreadable; whatever else is in a tag, its place is known. -/
theorem Token.tag_block {token : Token} {block : Bool} {tag : Tag} (tagged : token.tag block = .ok tag) :
    tag.block = block := by
  unfold Token.tag at tagged
  generalize TagKind.named token.name = kind at tagged
  dsimp only at tagged
  split at tagged
  · obtain ⟨level, -, given⟩ := except_bind_eq_ok.mp tagged
    cases given
    rfl
  · cases tagged
    rfl

theorem Token.tag_kind {token : Token} {block : Bool} {tag : Tag} (tagged : token.tag block = .ok tag) :
    tag.kind = TagKind.named token.name := by
  unfold Token.tag at tagged
  generalize TagKind.named token.name = kind at tagged ⊢
  dsimp only at tagged
  split at tagged
  · obtain ⟨level, -, given⟩ := except_bind_eq_ok.mp tagged
    cases given
    rfl
  · cases tagged
    rfl

/-- The tokens that open a block which nothing closes, innermost first, when `outer` are open before.
Hidden tokens open and close nothing. -/
def Token.leftOpen : List Token → List Token → List Token
  | outer, [] => outer
  | outer, token :: rest =>
    match token.nesting, token.hidden with
    | .opening, false => leftOpen (token :: outer) rest
    | .closing, false => leftOpen outer.tail rest
    | _, _ => leftOpen outer rest

namespace Block
variable {page : Page} {progress next after : Progress} {token : Token} {blocks others : List (Tag × Span)}
  {added : List Event} {span : Span} {tag : Tag}

def openingEvent (block : Tag × Span) : Event :=
  { kind := .opening, span := block.2, tag := some block.1 }

def closingEvent (block : Tag × Span) (stop : Nat) : Event :=
  { kind := .closing, span := .point stop, tag := some block.1 }

private theorem nest_closingEvent {block : Tag × Span} {outer : List Event} {stop : Nat} :
    (closingEvent block stop).nest (openingEvent block :: outer) = some outer :=
  Event.nest_closing rfl rfl

/-- What a token makes of the open blocks, and which events it adds. -/
inductive Contributes (token : Token) (blocks : List (Tag × Span)) :
    List (Tag × Span) → List Event → Prop where
  | hides (hidden : token.hidden = true) (paired : token.nesting ≠ .alone) :
    Contributes token blocks blocks []
  | opens {tag : Tag} {span : Span} (opening : token.nesting = .opening)
    (shown : token.hidden = false) (tagged : token.tag true = .ok tag) :
    Contributes token blocks ((tag, span) :: blocks) [openingEvent (tag, span)]
  | closes {block : Tag × Span} {outer : List (Tag × Span)} {stop : Nat}
    (closing : token.nesting = .closing) (shown : token.hidden = false)
    (innermost : blocks = block :: outer) :
    Contributes token blocks outer [closingEvent block stop]
  | stands {added : List Event} (alone : token.nesting = .alone) (balanced : Balanced added)
    (covered : Covered Event.Inline [] added) : Contributes token blocks blocks added

private theorem Contributes.balanced {left : List (Tag × Span)}
    (contributes : Contributes token blocks left added)
    (alone : token.nesting = .alone) : Balanced added := by
  cases contributes with
  | hides hidden paired => exact absurd alone paired
  | opens opening shown tagged => exact absurd (alone.symm.trans opening) (by decide)
  | closes closing shown innermost => exact absurd (alone.symm.trans closing) (by decide)
  | stands alone balanced covered => exact balanced

namespace Page

/-- The event that closes an element stands where its content ends or everything so far does, and so much
is consumed then. -/
theorem emitClosing_eq : page.emitClosing progress tag span =
    let stop := max (page.trimmedEnd span) progress.floor
    { progress with events := progress.events ++ [closingEvent (tag, span) stop], consumed := stop } := by
  have further : max progress.consumed (max (page.trimmedEnd span) progress.floor) =
      max (page.trimmedEnd span) progress.floor := by
    have floor : progress.consumed ≤ progress.floor := Nat.le_max_right ..
    omega
  simp only [emitClosing, Progress.emit, Progress.consume, further]
  rfl

def codeTag (token : Token) : Tag where
  kind := .codeBlock
  name := token.type
  info := if token.info.strip.isEmpty then none else some token.info.strip

def codeText (token : Token) (body : Span) : List Event :=
  if token.content.isEmpty then [] else [{ kind := .text, span := body, text := token.content }]

theorem codeText_leaf {body : Span} :
    ∀ event ∈ codeText token body, event.Leaf ∧ event.span = body := by
  intro event member
  unfold codeText at member
  split at member
  · cases member
  · cases List.mem_singleton.mp member
    exact ⟨⟨nofun, nofun⟩, rfl⟩

/-- A code block is an element around its text. -/
theorem codeBlock_eq_ok : page.codeBlock progress token = .ok after ↔ ∃ span body,
    page.lineSpan progress token = .ok span ∧ page.codeBody token span = .ok body ∧
    page.emitClosing (progress.emit (openingEvent (codeTag token, span) :: codeText token body))
      (codeTag token) span = after := by
  have emitted (span body : Span) : progress.emit
      (openingEvent (codeTag token, span) :: codeText token body) =
      if token.content.isEmpty then progress.emit [openingEvent (codeTag token, span)]
      else (progress.emit [openingEvent (codeTag token, span)]).emit
        [{ kind := .text, span := body, text := token.content }] := by
    unfold codeText
    split <;> simp [Progress.emit]
  simp only [codeBlock, except_bind_eq_ok, emitted]
  refine exists_congr fun span => ?_
  constructor
  · rintro ⟨found, body, foundBody, same⟩
    cases same
    exact ⟨body, found, foundBody, rfl⟩
  · rintro ⟨body, found, foundBody, rfl⟩
    exact ⟨found, body, foundBody, rfl⟩

private theorem codeBlock_contributes (alone : token.nesting = .alone)
    (ran : page.codeBlock progress token = .ok after) : ∃ added,
    Contributes token progress.blocks after.blocks added ∧ after.events = progress.events ++ added := by
  obtain ⟨span, body, -, -, rfl⟩ := codeBlock_eq_ok.mp ran
  have leaves := fun event member => (@codeText_leaf token body event member).1
  have balanced := Balanced.of_leaves leaves
  let opened := progress.emit (openingEvent (codeTag token, span) :: codeText token body)
  let closing := closingEvent (codeTag token, span) (max (page.trimmedEnd span) opened.floor)
  have around : Covered Event.Inline [] (openingEvent (codeTag token, span) :: codeText token body ++
      [closing]) := by
    refine (Covered.of_leaves leaves).of_element balanced rfl ?_
    rintro ⟨tag, ⟨⟩, ⟨⟩⟩
  refine ⟨openingEvent (codeTag token, span) :: codeText token body ++ [closing],
    .stands alone (balanced.of_element rfl rfl rfl) around, ?_⟩
  simp only [emitClosing, Progress.emit, Progress.consume, List.append_assoc, List.cons_append]
  rfl

private theorem inlineTokens_contributes (alone : token.nesting = .alone)
    (ran : page.inlineTokens progress token = .ok after) : ∃ added,
    Contributes token progress.blocks after.blocks added ∧ after.events = progress.events ++ added := by
  obtain ⟨region, -, ran⟩ := except_bind_eq_ok.mp ran
  obtain ⟨⟨events, pos⟩, scanned, ran⟩ := except_bind_eq_ok.mp ran
  cases ran
  obtain ⟨balanced, covered⟩ := Inline.events_nested (Nat.le_max_left ..) scanned
  exact ⟨events, .stands alone balanced (covered.mono fun _ _ => trivial), rfl⟩

/-- Every token does one of these. -/
theorem token_contributes (ran : page.token progress token = .ok after) : ∃ added,
    Contributes token progress.blocks after.blocks added ∧ after.events = progress.events ++ added := by
  cases token_reads ran with
  | untraced untraced =>
    refine ⟨[], ?_, (List.append_nil _).symm⟩
    cases nesting : token.nesting with
    | opening | closing => exact .hides (by simpa [Token.traced, nesting] using untraced) (by simp [nesting])
    | alone => exact .stands nesting .nil trivial
  | opens opening shown ran =>
    obtain ⟨tag, tagged, ran⟩ := except_bind_eq_ok.mp ran
    obtain ⟨span, -, ran⟩ := except_bind_eq_ok.mp ran
    cases ran
    exact ⟨_, .opens opening shown tagged, rfl⟩
  | closes closing shown ran =>
    unfold closeBlock at ran
    split at ran
    · cases ran
    · rename_i tag span outer innermost
      cases ran
      exact ⟨[closingEvent (tag, span) _], .closes closing shown innermost, rfl⟩
  | inline alone type ran => exact inlineTokens_contributes alone ran
  | code alone type ran => exact codeBlock_contributes alone ran
  | leaf alone type found leaf starts ends =>
    exact ⟨_, .stands alone (.of_leaves (by simpa)) (.of_leaves (by simpa)), rfl⟩

end Page

/-- The opening events that wait for their closing ones are those of the open blocks, and no inline
element is reached past by what it holds. -/
structure Nested (progress : Progress) : Prop where
  waiting : unclosed [] progress.events = some (progress.blocks.map openingEvent)
  blocks : ∀ block ∈ progress.blocks, block.1.block = true
  covered : Covered Event.Inline [] progress.events

namespace Nested

/-- The events of one token go on top of the open blocks, none of which is inline. -/
theorem of_contributes (nested : Nested progress)
    (contributes : Contributes token progress.blocks after.blocks added)
    (events : after.events = progress.events ++ added) : Nested after := by
  have apart : ∀ opening ∈ progress.blocks.map openingEvent, ¬ opening.Inline := by
    intro opening member
    obtain ⟨block, open_, rfl⟩ := List.mem_map.mp member
    rintro ⟨tag, ⟨⟩, inline⟩
    rw [nested.blocks block open_] at inline
    cases inline
  have covered (more : Covered Event.Inline (progress.blocks.map openingEvent) added) :
      Covered Event.Inline [] after.events := by
    rw [events]
    apply nested.covered.append
    rw [nested.waiting]
    rintro _ ⟨⟩
    exact more
  have waiting : unclosed [] after.events = unclosed (progress.blocks.map openingEvent) added := by
    rw [events, unclosed_append, nested.waiting, Option.bind_some]
  have free : ∀ event : Event, ∀ opening ∈ progress.blocks.map openingEvent, opening.Inline →
      event.stop ≤ opening.stop :=
    fun event opening member inline => absurd inline (apart opening member)
  obtain ⟨_, left, _⟩ := after
  dsimp only at contributes
  cases contributes with
  | hides hidden paired => exact ⟨waiting, nested.blocks, covered trivial⟩
  | opens opening shown tagged =>
    refine ⟨?_, ?_, covered (.single (free _))⟩
    · rw [waiting, unclosed_cons, Event.nest_opening rfl]
      rfl
    · intro block member
      rcases List.mem_cons.mp member with rfl | member
      · exact Token.tag_block tagged
      · exact nested.blocks block member
  | closes closing shown innermost =>
    refine ⟨?_, ?_, covered (.single (free _))⟩
    · rw [waiting, innermost, List.map_cons, unclosed_cons, nest_closingEvent]
      rfl
    · intro block member
      exact nested.blocks block (by simp [innermost, member])
  | stands alone balanced inside =>
    refine ⟨?_, nested.blocks, covered (inside.append_outer balanced fun event _ => free event)⟩
    rw [waiting, balanced.unclosed_eq]

end Nested

namespace Page

theorem token_nested (nested : Nested progress) (ran : page.token progress token = .ok after) :
    Nested after := by
  obtain ⟨added, contributes, events⟩ := token_contributes ran
  exact nested.of_contributes contributes events

theorem tokens_nested {tokens : List Token} (ran : page.tokens {} tokens = .ok after) : Nested after := by
  have begun : Nested {} := ⟨rfl, by simp, trivial⟩
  exact tokens_keep Nested token_nested begun ran

/-- Reading on only adds events. -/
theorem tokens_events {tokens : List Token} (ran : page.tokens progress tokens = .ok after) :
    progress.events <+: after.events := by
  refine tokens_keep (progress.events <+: ·.events) ?_ List.prefix_rfl ran
  intro reached token after before ran
  obtain ⟨added, -, events⟩ := token_contributes ran
  rw [events]
  exact before.trans (List.prefix_append ..)

/-- There are as many open blocks as tokens that opened one which nothing has closed. -/
theorem tokens_leftOpen {tokens outer : List Token} (same : progress.blocks.length = outer.length)
    (ran : page.tokens progress tokens = .ok after) :
    after.blocks.length = (Token.leftOpen outer tokens).length := by
  induction tokens generalizing progress outer with
  | nil =>
    cases ran
    exact same
  | cons head rest ih =>
    unfold Page.tokens at ran
    split at ran
    · rename_i next read
      obtain ⟨added, contributes, -⟩ := token_contributes read
      obtain ⟨_, left, _⟩ := next
      dsimp only at contributes
      cases contributes with
      | hides hidden paired =>
        have skipped : Token.leftOpen outer (head :: rest) = Token.leftOpen outer rest := by
          cases nesting : head.nesting <;> simp only [Token.leftOpen, nesting, hidden]
        rw [skipped]
        refine ih ?_ ran
        exact same
      | opens opening shown tagged =>
        simp only [Token.leftOpen, opening, shown]
        exact ih (by simp [same]) ran
      | closes closing shown innermost =>
        simp only [Token.leftOpen, closing, shown]
        exact ih (by simp [← same, innermost]) ran
      | stands alone balanced inside =>
        simp only [Token.leftOpen, alone]
        refine ih ?_ ran
        exact same
    · cases ran

end Page
end Block

/-- Events that are read from tokens are well nested, whatever the tokens say: a closing event carries
the tag of the innermost event that is open. What a token that stands alone adds is balanced by itself,
also where its own delimiters are not. The whole is balanced exactly when every token that opens a block
has its closing token. -/
theorem events_ofTokens_nested {source : Text} {tokens : List Token} {events : List Event}
    (read : Event.ofTokens source tokens = .ok events) :
    (∃ outer, unclosed [] events = some outer) ∧
    (∀ front token back, tokens = front ++ token :: back → token.nesting = .alone → ∃ before added,
      Event.ofTokens source front = .ok before ∧
      Event.ofTokens source (front ++ [token]) = .ok (before ++ added) ∧
      before ++ added <+: events ∧ Balanced added) ∧
    (Balanced events ↔ Token.leftOpen [] tokens = []) := by
  obtain ⟨progress, ran, rfl⟩ := map_eq_ok.mp read
  have nested := Block.Page.tokens_nested ran
  refine ⟨⟨_, nested.waiting⟩, ?_, ?_⟩
  · rintro front token back rfl alone
    rw [List.append_cons] at ran
    obtain ⟨next, through, later⟩ := Block.Page.tokens_append_eq_ok.mp ran
    obtain ⟨between, first, step⟩ := Block.Page.tokens_append_eq_ok.mp through
    obtain ⟨added, contributes, adds⟩ :=
      Block.Page.token_contributes (Block.Page.tokens_single_eq_ok.mp step)
    refine ⟨between.events, added, map_eq_ok.mpr ⟨between, first, rfl⟩, ?_, ?_,
      contributes.balanced alone⟩
    · rw [← adds]
      exact map_eq_ok.mpr ⟨next, through, rfl⟩
    · rw [← adds]
      exact Block.Page.tokens_events later
  · have none : ({} : Block.Progress).blocks.length = ([] : List Token).length := rfl
    have count := Block.Page.tokens_leftOpen none ran
    rw [Balanced, nested.waiting, Option.some.injEq, List.map_eq_nil_iff, ← List.length_eq_zero_iff,
      count, List.length_eq_zero_iff]

/-- A quote with a hidden paragraph, in which an emphasis is never closed and the words of an image open
one more. A code block follows, and the quote is closed by the token of a list. -/
def entangled : List Token := [
  { type := "blockquote_open", nesting := .opening, lines := some (0, 3) },
  { type := "paragraph_open", nesting := .opening, lines := some (0, 1), hidden := true },
  { type := "inline", lines := some (0, 1), children := [
    { type := "em_open", nesting := .opening, markup := ['*'] },
    { type := "image", children := [
      { type := "strong_open", nesting := .opening, markup := ['_'] },
      { type := "text", content := ['a'] }] }] },
  { type := "paragraph_close", nesting := .closing, hidden := true },
  { type := "fence", lines := some (1, 3), markup := ['~'], content := ['b', '\n'] },
  { type := "bullet_list_close", nesting := .closing }]

/-- The image's closing bracket closes what its words have opened, and the end of the inline tokens
closes the image and then the emphasis. -/
theorem entangled_events_nested : ∃ events,
    Event.ofTokens ['*', '!', '[', '_', 'a', ']', '\n', '~', '\n', 'b', '\n'] entangled = .ok events ∧
    events.map (fun event => (event.kind, (event.tag.map (·.kind)).getD .other)) = [
      (.opening, .blockQuote), (.opening, .emphasis), (.opening, .image), (.opening, .strong),
      (.text, .other), (.closing, .strong), (.closing, .image), (.closing, .emphasis),
      (.opening, .codeBlock), (.text, .other), (.closing, .codeBlock), (.closing, .blockQuote)] ∧
    Balanced events := by
  have kinds : (Event.ofTokens ['*', '!', '[', '_', 'a', ']', '\n', '~', '\n', 'b', '\n'] entangled).map
      (·.map fun event => (event.kind, (event.tag.map (·.kind)).getD .other)) = .ok [
        (.opening, .blockQuote), (.opening, .emphasis), (.opening, .image), (.opening, .strong),
        (.text, .other), (.closing, .strong), (.closing, .image), (.closing, .emphasis),
        (.opening, .codeBlock), (.text, .other), (.closing, .codeBlock), (.closing, .blockQuote)] := by
    cbv
  obtain ⟨events, read, kinds⟩ := map_eq_ok.mp kinds
  obtain ⟨-, -, balanced⟩ := events_ofTokens_nested read
  exact ⟨events, read, kinds, balanced.mpr rfl⟩

end Emend
