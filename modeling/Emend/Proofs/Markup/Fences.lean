import Mathlib
import Emend.Proofs.Markup.WholeLines

/-! Which lines are the body of a fenced code block. The last line is left out if it closes the fence, and
that is told from the line without the white space at its ends. So a line counts as closing however far it
is indented, and one that stands in a quote never does, because the quote's mark comes first. -/
namespace Emend

namespace Text
variable {strips : Char → Bool} {text core front tail body ending : Text} {mark : Char}
  {count depth length : Nat}

theorem trim_eq_nil_iff : text.trim strips = [] ↔ ∀ c ∈ text, strips c = true := by
  rw [trim, List.reverse_eq_nil_iff, List.dropWhile_eq_nil_iff]
  constructor
  · intro all
    rw [← List.dropWhile_eq_nil_iff]
    -- What is left begins with a character that stays, so nothing can be left.
    cases left : text.dropWhile strips with
    | nil => rfl
    | cons c rest =>
      have first := List.head?_dropWhile_not strips text
      have stripped := all c (by simp [left])
      simp [left, stripped] at first
  · intro all c member
    exact all c ((List.dropWhile_sublist strips).subset (List.mem_reverse.mp member))

/-- What is stripped at the end makes no difference. -/
theorem trim_append (all : ∀ c ∈ tail, strips c = true) : (text ++ tail).trim strips = text.trim strips := by
  rw [trim, trim, List.dropWhile_append]
  split
  · rename_i empty
    rw [List.isEmpty_iff.mp empty, List.dropWhile_eq_nil_iff.mpr all]
  · rw [List.reverse_append, List.dropWhile_append_of_pos (by simpa using all)]

private theorem exists_trimmed (strips : Char → Bool) (text : Text) : ∃ front tail,
    text = front ++ text.trim strips ++ tail ∧ (∀ c ∈ front, strips c = true) ∧
      ∀ c ∈ tail, strips c = true := by
  let kept := text.dropWhile strips
  refine ⟨text.takeWhile strips, (kept.reverse.takeWhile strips).reverse, ?_, ?_, ?_⟩
  · have parts : text.trim strips ++ (kept.reverse.takeWhile strips).reverse = kept := by
      rw [trim, ← List.reverse_append, List.takeWhile_append_dropWhile, List.reverse_reverse]
    rw [List.append_assoc, parts]
    exact List.takeWhile_append_dropWhile.symm
  · exact fun c member => List.mem_takeWhile_imp member
  · exact fun c member => List.mem_takeWhile_imp (List.mem_reverse.mp member)

/-- A text of characters that stay is what is left of it with others around it. -/
theorem trim_around (before : ∀ c ∈ front, strips c = true) (behind : ∀ c ∈ tail, strips c = true)
    (stays : ∀ c ∈ core, strips c = false) : (front ++ core ++ tail).trim strips = core := by
  have whole {text : Text} (stays : ∀ c ∈ text, strips c = false) : text.dropWhile strips = text := by
    cases text with
    | nil => rfl
    | cons c rest => exact List.dropWhile_cons_of_neg (by simp [stays])
  have stays' : ∀ c ∈ core.reverse, strips c = false := fun c member => stays c (List.mem_reverse.mp member)
  rw [trim_append behind, trim, List.dropWhile_append_of_pos before, whole stays, whole stays',
    List.reverse_reverse]

/-- The text is a run of at least so many marks, with nothing but white space around it. -/
def MarksAlone (text : Text) (mark : Char) (count : Nat) : Prop :=
  ∃ front length tail, text = front ++ List.replicate length mark ++ tail ∧ count ≤ length ∧
    (∀ c ∈ front, isBlank c = true) ∧ ∀ c ∈ tail, isBlank c = true

/-- The text closes a fence of so many marks: a run of at least as many, indented by three spaces or less,
and only spaces and tabs after it. -/
def ClosesFence (text : Text) (mark : Char) (count : Nat) : Prop :=
  ∃ indent length tail, text = List.replicate indent ' ' ++ List.replicate length mark ++ tail ∧
    indent ≤ 3 ∧ count ≤ length ∧ ∀ c ∈ tail, c = ' ' ∨ c = '\t'

private theorem ClosesFence.marksAlone (closes : text.ClosesFence mark count) :
    text.MarksAlone mark count := by
  obtain ⟨indent, length, tail, whole, -, long, blanks⟩ := closes
  refine ⟨_, length, tail, whole, long, fun c member => ?_, fun c member => ?_⟩
  · rw [List.eq_of_mem_replicate member]
    rfl
  · rcases blanks c member with rfl | rfl <;> rfl

/-- A line with marks in it is not empty. -/
theorem MarksAlone.start_lt_stop {start stop : Nat} (marks : body.MarksAlone mark count)
    (positive : 0 < count)
    (line : text.slice start stop = front ++ body ++ ending) : start < stop := by
  by_contra empty
  have none := congrArg List.length line
  obtain ⟨_, length, _, rfl, long, -⟩ := marks
  simp only [slice, List.length_take, List.length_append, List.length_replicate] at none
  omega

/-- Such marks are what is left of the text when the white space at its ends is gone. -/
theorem marksAlone_iff (visible : isBlank mark = false) :
    text.MarksAlone mark count ↔ ∃ length, count ≤ length ∧ text.strip = List.replicate length mark := by
  constructor
  · rintro ⟨front, length, tail, rfl, long, before, behind⟩
    refine ⟨length, long, trim_around before behind fun c member => ?_⟩
    rw [List.eq_of_mem_replicate member, visible]
  · rintro ⟨length, long, left⟩
    obtain ⟨front, tail, whole, before, behind⟩ := exists_trimmed isBlank text
    rw [show text.trim isBlank = List.replicate length mark from left] at whole
    exact ⟨front, length, tail, whole, long, before, behind⟩

/-- The marks of so many quotes around a line. -/
def quoting (depth : Nat) : Text :=
  (List.replicate depth ['>', ' ']).flatten

private theorem isBlank_of_isLineEnd {c : Char} (ends : Block.isLineEnd c = true) : isBlank c = true := by
  simp only [Block.isLineEnd, Bool.or_eq_true, beq_iff_eq] at ends
  rcases ends with rfl | rfl <;> rfl

/-- In a line the marks are alone only if no quote is around it. -/
theorem marksAlone_line (positive : 0 < count) (visible : isBlank mark = false) (other : mark ≠ '>')
    (broken : ∀ c ∈ ending, Block.isLineEnd c = true) :
    (quoting depth ++ body ++ ending).MarksAlone mark count ↔ depth = 0 ∧ body.MarksAlone mark count := by
  cases depth with
  | zero =>
    have stripped : (body ++ ending).strip = body.strip :=
      trim_append fun c member => isBlank_of_isLineEnd (broken c member)
    rw [marksAlone_iff visible, marksAlone_iff visible]
    simp [quoting, stripped]
  | succ depth =>
    constructor
    · rintro ⟨front, length, tail, whole, long, before, -⟩
      have quoted : quoting (depth + 1) ++ body ++ ending = '>' :: ' ' :: (quoting depth ++ body ++ ending) :=
        rfl
      rw [quoted] at whole
      cases front with
      | nil =>
        obtain ⟨more, rfl⟩ := Nat.exists_eq_add_of_lt (Nat.lt_of_lt_of_le positive long)
        rw [List.replicate_succ] at whole
        exact absurd (List.cons.inj whole).1.symm other
      | cons c front =>
        have blank := before c List.mem_cons_self
        rw [← (List.cons.inj whole).1] at blank
        cases blank
    · rintro ⟨none, -⟩
      cases none

end Text

namespace Block.Page
variable {page : Page} {mark : Char} {count : Nat}

/-- A line counts as closing a fence when the marks are alone in it. -/
theorem closesFence_iff {line : Int} (forward : 0 ≤ line) (positive : 0 < count)
    (visible : Text.isBlank mark = false) : ∃ closes,
    page.closesFence line (List.replicate count mark) = .ok closes ∧ (closes = true ↔
      (page.source.slice (page.lines.top line) (page.lines.top (line + 1))).MarksAlone mark count) := by
  let text := (page.source.slice (page.lines.top line) (page.lines.top (line + 1))).strip
  cases count with
  | zero => cases positive
  | succ count =>
    refine ⟨(List.replicate (count + 1) mark).isPrefixOf text && (text.trim (· == mark)).isEmpty, ?_, ?_⟩
    · unfold closesFence
      rw [Lines.startOf_top forward, Lines.startOf_top (Int.le_add_one forward)]
      rfl
    · rw [Text.marksAlone_iff visible, Bool.and_eq_true, List.isPrefixOf_iff_prefix, List.isEmpty_iff,
        Text.trim_eq_nil_iff]
      simp only [beq_iff_eq]
      constructor
      · rintro ⟨begins, all⟩
        refine ⟨text.length, ?_, List.eq_replicate_iff.mpr ⟨rfl, all⟩⟩
        simpa using begins.length_le
      · rintro ⟨length, long, same⟩
        obtain ⟨more, rfl⟩ := Nat.exists_eq_add_of_le long
        rw [show text = _ from same]
        exact ⟨⟨List.replicate more mark, by simp⟩, fun c member => List.eq_of_mem_replicate member⟩

end Block.Page

/-- The token is a fenced block of code over these lines, between fences of so many marks. -/
structure Token.FencesCode (token : Token) (mark : Char) (count : Nat) (first last : Int) : Prop where
  type : token.type = "fence"
  alone : token.nesting = .alone
  lines : token.lines = some (first, last)
  markup : token.markup = List.replicate count mark
  substance : token.content ≠ []
  positive : 0 < count
  visible : Text.isBlank mark = false
  other : mark ≠ '>'

namespace Block.Page
variable {page : Page} {progress : Progress} {fence : Token} {mark : Char} {count : Nat}
  {first last : Int}

private theorem fenceBody_eq {span : Span} {markup : Text} {closes : Bool} (forward : 0 ≤ first)
    (several : first + 1 < last) (starts : span.start ≤ page.lines.top (first + 1))
    (fits : page.lines.top (first + 1) ≤ span.stop)
    (checked : page.closesFence (last - 1) markup = .ok closes) :
    page.fenceBody span markup first last = .ok (.reach (page.lines.top (first + 1))
      (if closes then page.lines.top (last - 1) else span.stop)) := by
  have begins : max span.start (min (page.lines.top (first + 1)) span.stop) =
      page.lines.top (first + 1) := by omega
  have next : 0 ≤ first + 1 := by omega
  have final : 0 ≤ last - 1 := by omega
  simp only [fenceBody, Lines.startOf_top next, Lines.startOf_top final, begins, several, checked, bind,
    Except.bind, ↓reduceIte]
  cases closes <;> rfl

/-- The body of a fence starts with the line after the opening marks, and stops before the last line if the
marks are alone there, and behind it otherwise. -/
theorem token_fences (told : fence.FencesCode mark count first last) (forward : 0 ≤ first)
    (several : first + 1 < last) (indexed : page.lines = .ofText page.source)
    (begun : progress.lastStart ≤ page.lines.top (first + 1)) : ∃ opening stop closing after,
    page.token progress fence = .ok after ∧
    after.events = progress.events ++ [opening,
      { kind := .text, span := .reach (page.lines.top (first + 1)) stop, text := fence.content }, closing] ∧
    let alone := (page.source.slice (page.lines.top (last - 1)) (page.lines.top last)).MarksAlone mark count
    (alone → stop = page.lines.top (last - 1)) ∧ (¬ alone → stop = page.lines.top last) := by
  have rising {low high : Int} (ordered : low ≤ high) : page.lines.top low ≤ page.lines.top high := by
    rw [indexed]
    exact Lines.top_mono ordered
  let span : Span := .reach (max (page.lines.top first) progress.lastStart) (page.lines.top last)
  have starts : span.start ≤ page.lines.top (first + 1) := Nat.max_le.mpr ⟨rising (by omega), begun⟩
  have before : page.lines.top (first + 1) ≤ page.lines.top last := rising (by omega)
  have stops : span.stop = page.lines.top last := Nat.max_eq_right (Nat.le_trans starts before)
  have placed : page.lineSpan progress fence = .ok span := by
    unfold lineSpan lineSpan?
    rw [told.lines]
    simp only [Lines.startOf_top forward, Lines.startOf_top (show 0 ≤ last by omega), bind, Except.bind,
      pure, Except.pure, Option.getD_some, span]
  obtain ⟨closes, checked, known⟩ := @closesFence_iff page mark count (last - 1) (by omega)
    told.positive told.visible
  rw [Int.sub_add_cancel] at known
  let stop := if closes then page.lines.top (last - 1) else page.lines.top last
  have body : page.codeBody fence span = .ok (.reach (page.lines.top (first + 1)) stop) := by
    have found := fenceBody_eq forward several starts (stops ▸ before) checked
    rw [stops] at found
    rw [codeBody, told.type, told.lines, told.markup]
    exact found
  have text : codeText fence (.reach (page.lines.top (first + 1)) stop) =
      [{ kind := .text, span := .reach (page.lines.top (first + 1)) stop, text := fence.content }] := by
    rw [codeText, if_neg (by simpa using told.substance)]
  let inner : Span := .reach (page.lines.top (first + 1)) stop
  let filled := progress.emit (openingEvent (codeTag fence, span) :: codeText fence inner)
  refine ⟨openingEvent (codeTag fence, span), stop,
    closingEvent (codeTag fence, span) (max (page.trimmedEnd span) filled.floor),
    page.emitClosing filled (codeTag fence) span, ?_, ?_, ?_⟩
  · rw [Page.token, told.alone, told.type]
    exact codeBlock_eq_ok.mpr ⟨span, inner, placed, body, rfl⟩
  · rw [emitClosing_eq]
    simp only [filled, Progress.emit, inner, text, List.append_assoc, List.cons_append, List.nil_append]
  · rw [← known]
    exact ⟨fun alone => if_pos alone, fun missing => if_neg missing⟩

end Block.Page

namespace Block
variable {page : Page} {outline : Outline} {progress after : Progress}

/-- Before any token nothing is done. -/
theorem flush_begun {source : Text} : Flush { source, lines := .ofText source } {} {} where
  sound := ⟨rfl, .nil, by simp, by simp, Nat.zero_le _⟩
  nested := ⟨rfl, by simp, trivial⟩
  fits := ⟨.nil, Nat.zero_le _, Nat.zero_le _, trivial⟩
  ends := .nil
  begun _ := Nat.zero_le _

theorem tokens_flush {front rest : List Token} (flush : Flush page outline progress)
    (outlined : Outlined outline (front ++ rest)) (ran : page.tokens progress front = .ok after) :
    ∃ outline, Flush page outline after ∧ Outlined outline rest := by
  induction front generalizing outline progress with
  | nil =>
    cases ran
    exact ⟨outline, flush, outlined⟩
  | cons head front ih =>
    unfold Page.tokens at ran
    split at ran
    · rename_i next read
      obtain ⟨fills, later⟩ := outlined
      exact ih (Page.token_flush flush fills read) later ran
    · cases ran

end Block

/-- Tokens that fill their lines leave the body of a fence free: nothing before the fence starts in it. -/
theorem Outlined.starts_apart {source : Text} {front : List Token} {before : List Event} {fence : Token}
    {mark : Char} {count : Nat} {first last : Int} (outlined : Outlined {} (front ++ [fence]))
    (told : fence.FencesCode mark count first last) (read : Event.ofTokens source front = .ok before) :
    ∀ event ∈ before, event.start ≤ (Lines.ofText source).top (first + 1) := by
  obtain ⟨progress, ran, rfl⟩ := map_eq_ok.mp read
  obtain ⟨outline, flush, fills, -⟩ := Block.tokens_flush Block.flush_begun outlined ran
  have traced : fence.traced = true := by
    rw [Token.traced, told.alone, told.type]
    rfl
  have fills := fills traced (by simp [told.alone])
  obtain ⟨_, _, lines, -, -, done, -⟩ := fills.lines
  cases told.lines.symm.trans lines
  intro event member
  have outside := fills.heading_eq_false fun _ => by simp [told.type]
  calc event.start
    _ ≤ progress.lastStart := flush.sound.start_le_lastStart event member
    _ ≤ (Lines.ofText source).top outline.done := flush.begun outside
    _ ≤ (Lines.ofText source).top (first + 1) := Lines.top_mono (by omega)

/-- The body of a fence in so many quotes covers whole lines, from the one behind the opening marks. The last
line is left out just if no quote is around it and the marks are alone in it, closing the fence or not. So
one that does close the fence is left out only where there is no quote. -/
theorem fence_body_placed {source body ending : Text} {front : List Token} {before : List Event}
    {fence : Token} {mark : Char} {count depth : Nat} {first last : Int}
    (read : Event.ofTokens source front = .ok before) (told : fence.FencesCode mark count first last)
    (forward : 0 ≤ first) (several : first + 1 < last)
    (apart : ∀ event ∈ before, event.start ≤ (Lines.ofText source).top (first + 1))
    (line : source.slice ((Lines.ofText source).top (last - 1)) ((Lines.ofText source).top last) =
      Text.quoting depth ++ body ++ ending)
    (broken : ∀ c ∈ ending, Block.isLineEnd c = true) :
    let top := (Lines.ofText source).top
    let alone := depth = 0 ∧ body.MarksAlone mark count
    ∃ opening stop closing,
      let text : Event := { kind := .text, span := .reach (top (first + 1)) stop, text := fence.content }
      Event.ofTokens source (front ++ [fence]) = .ok (before ++ [opening, text, closing]) ∧
      (∀ later events, Event.ofTokens source (front ++ [fence] ++ later) = .ok events →
        before ++ [opening, text, closing] <+: events) ∧
      text.span.text source = source.slice (top (first + 1)) stop ∧
      (alone → stop = top (last - 1)) ∧ (stop = top last ↔ ¬ alone) ∧
      (body.ClosesFence mark count → (stop = top (last - 1) ↔ depth = 0)) := by
  intro top alone
  let page : Block.Page := { source, lines := .ofText source }
  obtain ⟨progress, ran, rfl⟩ := map_eq_ok.mp read
  have begun : progress.lastStart ≤ page.lines.top (first + 1) := Block.lastStart_le_of apart
  obtain ⟨opening, stop, closing, after, step, events, stands⟩ :=
    Block.Page.token_fences told forward several rfl begun
  have same : (source.slice (top (last - 1)) (top last)).MarksAlone mark count ↔ alone := by
    rw [line]
    exact Text.marksAlone_line told.positive told.visible told.other broken
  have closed (clear : alone) : stop = top (last - 1) := stands.1 (same.mpr clear)
  have kept (other : ¬ alone) : stop = top last := stands.2 fun clear => other (same.mp clear)
  have walked := Block.Page.tokens_append_eq_ok.mpr ⟨progress, ran, Block.Page.tokens_single_eq_ok.mpr step⟩
  have begins : top (first + 1) ≤ stop := by
    by_cases clear : alone
    · exact closed clear ▸ Lines.top_mono (by omega)
    · exact kept clear ▸ Lines.top_mono (by omega)
  have filled (marks : body.MarksAlone mark count) : top (last - 1) < top last :=
    marks.start_lt_stop told.positive line
  refine ⟨opening, stop, closing, ?_, fun later events' more => ?_, ?_, closed, ⟨fun long clear => ?_, kept⟩,
    fun closes => ⟨fun short => ?_, fun plain => closed ⟨plain, closes.marksAlone⟩⟩⟩
  · rw [← events, Event.ofTokens, walked]
    rfl
  · obtain ⟨final, goes, rfl⟩ := map_eq_ok.mp more
    obtain ⟨between, came, goes⟩ := Block.Page.tokens_append_eq_ok.mp goes
    cases walked.symm.trans came
    exact events ▸ Block.Page.tokens_events goes
  · exact congrArg (source.slice (top (first + 1))) (Nat.max_eq_right begins)
  · have apart := filled clear.2
    have short := closed clear
    omega
  · by_contra quoted
    have apart := filled closes.marksAlone
    have long := kept fun clear => quoted clear.1
    omega

/-- A paragraph, and a fence that closes with more marks, indented and with a space behind them. -/
def indentedClosing : Text :=
  ['x', '\n', '~', '~', '~', '\n', 'a', '\n', ' ', ' ', '~', '~', '~', '~', ' ', '\n']

def indentedFront : List Token := [
  { type := "paragraph_open", nesting := .opening, lines := some (0, 1) },
  { type := "inline", lines := some (0, 1), children := [{ type := "text", content := ['x'] }] },
  { type := "paragraph_close", nesting := .closing }]

def indentedFence : Token :=
  { type := "fence", lines := some (1, 4), markup := ['~', '~', '~'], content := ['a', '\n'] }

private theorem indentedFence_outlined : Outlined {} (indentedFront ++ [indentedFence]) := by
  have paragraph : Token.Fills {} indentedFront[0] := ⟨⟨0, 1, rfl, by decide⟩, nofun⟩
  have words : Token.Fills { frames := [some 1] } indentedFront[1] := ⟨⟨0, 1, rfl, by decide⟩, nofun⟩
  have code : Token.Fills { done := 1 } indentedFence := ⟨⟨1, 4, rfl, by decide⟩, nofun⟩
  exact ⟨fun _ _ => paragraph, fun _ _ => words, fun _ opens => absurd rfl opens, fun _ _ => code, trivial⟩

/-- No quote is around the fence, so its last line is left out. -/
theorem indentedFence_body_placed : ∃ events,
    Event.ofTokens indentedClosing (indentedFront ++ [indentedFence]) = .ok events ∧
    { kind := .text, span := .reach 6 8, text := ['a', '\n'] } ∈ events := by
  let paragraph : Tag := { kind := .paragraph, name := "paragraph" }
  have read : Event.ofTokens indentedClosing indentedFront = .ok [
      { kind := .opening, span := .reach 0 2, tag := some paragraph },
      { kind := .text, span := .reach 0 1, text := ['x'] },
      { kind := .closing, span := .point 1, tag := some paragraph }] := by
    rfl
  have told : indentedFence.FencesCode '~' 3 1 4 :=
    ⟨rfl, rfl, rfl, rfl, by decide, by decide, rfl, by decide⟩
  have line : indentedClosing.slice ((Lines.ofText indentedClosing).top (4 - 1))
      ((Lines.ofText indentedClosing).top 4) =
      Text.quoting 0 ++ [' ', ' ', '~', '~', '~', '~', ' '] ++ ['\n'] := by
    rfl
  have closes : Text.ClosesFence [' ', ' ', '~', '~', '~', '~', ' '] '~' 3 :=
    ⟨2, 4, [' '], rfl, by decide, by decide, by simp⟩
  obtain ⟨opening, stop, closing, placed, -, -, -, -, short⟩ := fence_body_placed read told (by decide)
    (by decide) (indentedFence_outlined.starts_apart told read) line (by simp [Block.isLineEnd])
  have stops : stop = 8 := (short closes).mpr rfl
  rw [stops] at placed
  exact ⟨_, placed, List.mem_append_right _ (List.mem_cons_of_mem _ List.mem_cons_self)⟩

/-- A quote around a fence of one line. -/
def quotedFence : Text :=
  ['>', ' ', '~', '~', '~', '\n', '>', ' ', 'a', '\n', '>', ' ', '~', '~', '~', '\n']

def quotedFenceTokens : List Token := [
  { type := "blockquote_open", nesting := .opening, lines := some (0, 3) },
  { type := "fence", lines := some (0, 3), markup := ['~', '~', '~'], content := ['a', '\n'] },
  { type := "blockquote_close", nesting := .closing }]

/-- The line that closes the fence in the quote is taken for a part of its body. -/
theorem quotedFence_closing_kept :
    let quote : Tag := { kind := .blockQuote, name := "blockquote" }
    let code : Tag := { kind := .codeBlock, name := "fence" }
    let top := (Lines.ofText quotedFence).top
    let events : List Event := [
      { kind := .opening, span := .reach 0 16, tag := some quote },
      { kind := .opening, span := .reach 0 16, tag := some code },
      { kind := .text, span := .reach 6 16, text := ['a', '\n'] },
      { kind := .closing, span := .point 15, tag := some code },
      { kind := .closing, span := .point 15, tag := some quote }]
    Event.ofTokens quotedFence quotedFenceTokens = .ok events ∧
    quotedFence.slice (top (3 - 1)) (top 3) = Text.quoting 1 ++ ['~', '~', '~'] ++ ['\n'] ∧
    Text.ClosesFence ['~', '~', '~'] '~' 3 ∧
    ∀ event ∈ events, event.kind = .text → event.span ≠ .reach (top (0 + 1)) (top (3 - 1)) := by
  intro quote code top events
  exact ⟨rfl, rfl, ⟨0, 3, [], rfl, by decide, by decide, by simp⟩, by decide⟩

end Emend
