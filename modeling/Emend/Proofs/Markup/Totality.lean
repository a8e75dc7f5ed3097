import Mathlib
import Emend.Proofs.Markup.Elements

/-! Tokens that are always read. Three things can go wrong with tokens: a closing one finds nothing open, a
line counts back past the first one, and the level of a heading cannot be read. The first cannot happen as
long as no front part of the tokens closes more than it opens. This holds of the blocks and, one level
down, of the inline tokens of each of them, where the words of an image are counted for themselves: they
cannot close what is open around the image, but they may leave something open. -/
namespace Emend

/-- A text of decimal digits is a number unless it is too long. -/
theorem Text.readNumber_total {text : Text} (decimal : ∀ c ∈ text, (Text.decimal? c).isSome)
    (short : text.length ≤ longestNumber) : ∃ value, readNumber text = .number value := by
  have whole : (text.takeWhile fun c => (decimal? c).isSome) = text :=
    List.takeWhile_eq_self_iff.mpr decimal
  have length : (text.filterMap decimal?).length = text.length := by
    rw [List.length_filterMap_eq_countP, List.countP_eq_length]
    exact decimal
  unfold readNumber
  dsimp only
  rw [whole, length, if_neg (Nat.not_lt.mpr short), if_neg (Nat.lt_irrefl _)]
  exact ⟨_, rfl⟩

namespace Token

/-- The token opens one of the containers that count. -/
def opens (counts : Token → Bool) (token : Token) : Bool :=
  token.nesting = .opening && counts token

/-- The token closes one of the containers that count. -/
def closes (counts : Token → Bool) (token : Token) : Bool :=
  token.nesting = .closing && counts token

/-- No front part of the tokens closes more containers than it opens and `depth` others. -/
def Closable (counts : Token → Bool) (depth : Nat) (tokens : List Token) : Prop :=
  ∀ front, front <+: tokens → front.countP (closes counts) ≤ depth + front.countP (opens counts)

instance (counts : Token → Bool) (depth : Nat) (tokens : List Token) :
    Decidable (Closable counts depth tokens) :=
  decidable_of_iff (∀ front ∈ tokens.inits,
    front.countP (closes counts) ≤ depth + front.countP (opens counts)) (by
      simp only [List.mem_inits, Closable])

/-- If the token is a heading with a level, the level has decimal digits only and no more of them than a
number may have. -/
def Leveled (token : Token) : Prop :=
  TagKind.named token.name = .heading → (token.element.drop 1).all Text.isDigit = true →
    (∀ c ∈ token.element.drop 1, (Text.decimal? c).isSome) ∧
      (token.element.drop 1).length ≤ Text.longestNumber

instance (token : Token) : Decidable token.Leveled :=
  inferInstanceAs (Decidable (_ → _ → _))

/-- The token's lines do not count back from the end. -/
def Forward (token : Token) : Prop :=
  ∀ lines ∈ token.lines, 0 ≤ lines.1 ∧ 0 ≤ lines.2

instance (token : Token) : Decidable token.Forward :=
  inferInstanceAs (Decidable (∀ lines ∈ token.lines, _))

/-- Inline tokens that never close more than they have opened, and neither do the words of an image among
them. -/
inductive Scannable : List Token → Prop
  | of {tokens : List Token} (closable : Closable (fun _ => true) 0 tokens)
    (leveled : ∀ token ∈ tokens, token.nesting = .opening → token.Leveled)
    (images : ∀ token ∈ tokens, token.nesting = .alone → token.type = "image" →
      Scannable token.children) : Scannable tokens

/-- Whatever was read before it, nothing is wrong with the token itself. -/
structure Readable (token : Token) : Prop where
  forward : token.Forward
  leveled : token.nesting = .opening → token.hidden = false → token.Leveled
  scannable : token.nesting = .alone → token.type = "inline" → Scannable token.children

variable {σ : Type} {counts : Token → Bool} {token : Token} {tokens others : List Token}
  {depth base : Nat}

namespace Closable

private theorem depth_pos (closable : Closable counts depth (token :: others))
    (closing : token.closes counts = true) :
    0 < depth := by
  have first := closable [token] (List.prefix_append [token] others)
  have other : token.opens counts = false := by
    simp only [closes, Bool.and_eq_true, decide_eq_true_eq] at closing
    simp [opens, closing.1]
  simp only [List.countP_singleton, closing, other, ↓reduceIte, Bool.false_eq_true] at first
  exact first

private theorem tail_closable (closable : Closable counts depth (token :: others)) :
    Closable counts (depth + (token.opens counts).toNat - (token.closes counts).toNat) others := by
  intro front before
  have more := closable (token :: front) (List.cons_prefix_cons.mpr ⟨rfl, before⟩)
  simp only [List.countP_cons] at more
  cases opening : token.opens counts <;> cases closing : token.closes counts <;>
    simp only [opening, closing, Bool.toNat_true, Bool.toNat_false, ↓reduceIte, Bool.false_eq_true]
      at more ⊢ <;> omega

/-- Closable tokens are read to the end by a step that only needs something open where a token closes, and
what is open below `base` stays open. -/
theorem foldlM_total {step : σ → Token → Except Fault σ} {size : σ → Nat} {state : σ}
    (closable : Closable counts depth tokens) (room : base + depth ≤ size state)
    (goes : ∀ token ∈ tokens, ∀ state, (token.closes counts = true → 0 < size state) → ∃ next,
      step state token = .ok next ∧
      size state + (token.opens counts).toNat ≤ size next + (token.closes counts).toNat) :
    ∃ after, tokens.foldlM step state = .ok after ∧ base ≤ size after := by
  induction tokens generalizing state depth with
  | nil => exact ⟨state, rfl, by omega⟩
  | cons token others ih =>
    have positive : (token.closes counts).toNat ≤ depth := by
      cases closing : token.closes counts with
      | true => exact closable.depth_pos closing
      | false => exact Nat.zero_le _
    obtain ⟨next, stepped, grown⟩ := goes token List.mem_cons_self state fun closing => by
      have positive := closable.depth_pos closing
      omega
    have roomNext : base + (depth + (token.opens counts).toNat - (token.closes counts).toNat) ≤
        size next := by
      omega
    obtain ⟨after, ran, upper⟩ := ih closable.tail_closable roomNext
      fun token member => goes token (List.mem_cons_of_mem _ member)
    refine ⟨after, ?_, upper⟩
    rw [List.foldlM_cons]
    exact except_bind_eq_ok.mpr ⟨next, stepped, ran⟩

end Closable

theorem tag_total (leveled : token.Leveled) (block : Bool) : ∃ tag, token.tag block = .ok tag := by
  have level : TagKind.named token.name = .heading → ∃ level, token.level = .ok level := by
    intro heading
    unfold Token.level
    dsimp only
    split
    · exact ⟨none, rfl⟩
    · rename_i digits
      simp only [Bool.or_eq_true, Bool.not_eq_true', not_or, Bool.not_eq_false] at digits
      obtain ⟨-, all⟩ := digits
      obtain ⟨decimal, short⟩ := leveled heading all
      obtain ⟨value, read⟩ := Text.readNumber_total decimal short
      rw [read]
      exact ⟨_, rfl⟩
  unfold tag
  dsimp only
  by_cases heading : TagKind.named token.name = .heading
  · obtain ⟨level, found⟩ := level heading
    rw [if_pos heading, found]
    exact ⟨_, rfl⟩
  · rw [if_neg heading]
    exact ⟨_, rfl⟩

/-- An image has no level to read. -/
theorem leveled_of_image (image : token.type = "image") : token.Leveled := by
  intro heading
  rw [name, image] at heading
  cases heading

end Token

namespace Inline.Scan
variable {window : Window} {scan : Scan} {token : Token} {tokens : List Token}

private theorem add_held_length {events : List Event} : (scan.add events).held.length = scan.held.length := by
  unfold add
  split
  · rfl
  · rename_i held rest some
    simp [some]

theorem release_total {span : Span} (held : 0 < scan.held.length) : ∃ after,
    scan.release span = .ok after ∧ after.held.length + 1 = scan.held.length := by
  unfold release
  split
  · rename_i none
    simp [none] at held
  · rename_i innermost rest some
    refine ⟨_, rfl, ?_⟩
    rw [add_held_length, some]
    rfl

theorem tokens_eq_foldlM : Scan.tokens window scan tokens = tokens.foldlM (Scan.token window) scan := by
  induction tokens generalizing scan with
  | nil => rfl
  | cons head rest ih =>
    unfold Scan.tokens
    rw [List.foldlM_cons]
    cases Scan.token window scan head with
    | ok next => exact ih
    | error fault => rfl

/-- A token holds one element more if it opens one, and one less if it closes one. -/
theorem token_total (leveled : token.nesting = .opening → token.Leveled)
    (closing : token.nesting = .closing → 0 < scan.held.length)
    (words : token.nesting = .alone → token.type = "image" → ∀ scan : Scan, ∃ inside,
      Scan.tokens window scan token.children = .ok inside ∧ scan.held.length ≤ inside.held.length) :
    ∃ next, Scan.token window scan token = .ok next ∧
      scan.held.length + (token.opens fun _ => true).toNat ≤
        next.held.length + (token.closes fun _ => true).toNat := by
  rw [token_eq]
  cases nesting : token.nesting with
  | opening =>
    obtain ⟨tag, tagged⟩ := Token.tag_total (leveled nesting) false
    refine ⟨_, map_eq_ok.mpr ⟨tag, tagged, rfl⟩, ?_⟩
    simp [Token.opens, Token.closes, nesting, hold]
  | closing =>
    obtain ⟨next, released, less⟩ := release_total (closing nesting)
    refine ⟨next, released, ?_⟩
    simp only [Token.opens, Token.closes, nesting, reduceCtorEq, decide_false, Bool.false_and,
      decide_true, Bool.and_self, Bool.toNat_true, Bool.toNat_false]
    omega
  | alone =>
    simp only [Token.opens, Token.closes, nesting, reduceCtorEq, decide_false, Bool.false_and,
      Bool.toNat_false, Nat.add_zero]
    split
    · rename_i image
      obtain ⟨tag, tagged⟩ := Token.tag_total (Token.leveled_of_image image) false
      obtain ⟨inside, walked, grown⟩ :=
        words nesting image (scan.hold tag (window.locate ['!', '['] scan.pos))
      have more : (scan.hold tag (window.locate ['!', '['] scan.pos)).held.length =
          scan.held.length + 1 := rfl
      obtain ⟨next, released, less⟩ :=
        @release_total inside (window.bracketSpan inside.pos) (by omega)
      refine ⟨next, ?_, by omega⟩
      exact except_bind_eq_ok.mpr ⟨tag, tagged, except_bind_eq_ok.mpr ⟨inside, walked, released⟩⟩
    · split
      · refine ⟨_, rfl, ?_⟩
        rw [add_held_length]
      · exact ⟨scan, rfl, Nat.le_refl _⟩

/-- Scannable tokens are scanned to the end, and close none of the elements that were open before. -/
theorem tokens_total (scannable : Token.Scannable tokens) (scan : Scan) : ∃ after,
    Scan.tokens window scan tokens = .ok after ∧ scan.held.length ≤ after.held.length := by
  induction scannable generalizing scan with
  | of closable leveled images ih =>
    rw [tokens_eq_foldlM]
    refine closable.foldlM_total (Nat.le_refl _) fun token member scan closing => ?_
    refine token_total (leveled token member) (fun closes => ?_) (ih token member)
    exact closing (by simp [Token.closes, closes])

end Inline.Scan

namespace Block
variable {page : Page} {progress : Progress} {token : Token} {tokens : List Token}

/-- Two offsets that are found apart from each other and put together make a span as they are: the one to
start at is never the later one. -/
structure EndsInOrder (page : Page) : Prop where
  heading : ∀ (markup : Text) (lines : Span) (mark : Nat), ['#'].isPrefixOf markup = true →
    page.source.find? markup lines.start lines.stop = some mark →
    Span.of mark lines.stop = .ok (page.headingSpan markup lines)
  content : ∀ lines : Span,
    Span.of lines.start (page.trimmedEnd lines) = .ok (.reach lines.start (page.trimmedEnd lines))
  bracket : ∀ (window : Inline.Window) (pos stop : Nat),
    window.destinationEnd (window.locate [']'] pos).stop = some stop →
    Span.of (window.locate [']'] pos).start stop = .ok (window.bracketSpan pos)
  code : ∀ (window : Inline.Window) (markup : Text) (pos : Nat),
    let first := window.locate markup pos
    let second := window.locate markup first.stop
    second.isEmpty = false → Span.of first.start second.stop = .ok (window.codeSpan markup pos)

namespace Page

theorem tokens_eq_foldlM : page.tokens progress tokens = tokens.foldlM page.token progress := by
  induction tokens generalizing progress with
  | nil => rfl
  | cons head rest ih =>
    unfold Page.tokens
    rw [List.foldlM_cons]
    cases page.token progress head with
    | ok next => exact ih
    | error fault => rfl

theorem lineSpan?_total (forward : token.Forward) : ∃ region,
    page.lineSpan? progress token = .ok region := by
  unfold lineSpan?
  cases lines : token.lines with
  | none => exact ⟨none, rfl⟩
  | some range =>
    obtain ⟨first, last⟩ := range
    obtain ⟨begins, ends⟩ := forward (first, last) lines
    obtain ⟨top, foundTop⟩ := @Lines.startOf_total _ page.lines begins
    obtain ⟨bottom, foundBottom⟩ := @Lines.startOf_total _ page.lines ends
    exact ⟨_, except_bind_eq_ok.mpr ⟨top, foundTop, except_bind_eq_ok.mpr ⟨bottom, foundBottom, rfl⟩⟩⟩

theorem lineSpan_total (forward : token.Forward) : ∃ span, page.lineSpan progress token = .ok span := by
  obtain ⟨region, found⟩ := @lineSpan?_total page progress token forward
  exact ⟨_, except_bind_eq_ok.mpr ⟨region, found, rfl⟩⟩

theorem closesFence_total {line : Int} (forward : 0 ≤ line) (markup : Text) : ∃ closes,
    page.closesFence line markup = .ok closes := by
  obtain ⟨top, foundTop⟩ := @Lines.startOf_total _ page.lines forward
  obtain ⟨bottom, foundBottom⟩ := @Lines.startOf_total (line + 1) page.lines (by omega)
  unfold closesFence
  rw [foundTop, foundBottom]
  cases markup with
  | nil => exact ⟨_, rfl⟩
  | cons mark more => exact ⟨_, rfl⟩

theorem fenceBody_total {first last : Int} (forward : 0 ≤ first) (span : Span) (markup : Text) :
    ∃ body, page.fenceBody span markup first last = .ok body := by
  obtain ⟨top, foundTop⟩ := @Lines.startOf_total (first + 1) page.lines (by omega)
  unfold fenceBody
  by_cases several : first + 1 < last
  · obtain ⟨closes, closed⟩ := @closesFence_total page (last - 1) (by omega) markup
    obtain ⟨bottom, foundBottom⟩ := @Lines.startOf_total (last - 1) page.lines (by omega)
    simp only [foundTop, several, closed, foundBottom, bind, Except.bind, ↓reduceIte]
    cases closes <;> exact ⟨_, rfl⟩
  · simp only [foundTop, several, bind, Except.bind, ↓reduceIte]
    exact ⟨_, rfl⟩

theorem codeBody_total (forward : token.Forward) (span : Span) : ∃ body,
    page.codeBody token span = .ok body := by
  unfold codeBody
  split
  · rename_i first last _ lines
    exact fenceBody_total (forward (first, last) lines).1 span token.markup
  · exact ⟨_, rfl⟩

theorem codeBlock_total (forward : token.Forward) : ∃ next, page.codeBlock progress token = .ok next := by
  obtain ⟨span, found⟩ := @lineSpan_total page progress token forward
  obtain ⟨body, foundBody⟩ := @codeBody_total page token forward span
  exact ⟨_, codeBlock_eq_ok.mpr ⟨span, body, found, foundBody, rfl⟩⟩

theorem inlineTokens_total (forward : token.Forward) (scannable : Token.Scannable token.children) :
    ∃ next, page.inlineTokens progress token = .ok next := by
  obtain ⟨region, found⟩ := @lineSpan?_total page progress token forward
  let limit := (region.map Span.stop).getD (page.enclosingEnd progress)
  let start := max ((region.map Span.start).getD 0) progress.floor
  let window : Inline.Window := { source := page.source, limit := max start limit }
  obtain ⟨scan, walked, -⟩ :=
    @Inline.Scan.tokens_total window token.children scannable { pos := start }
  have scanned : Inline.events window start token.children = .ok (scan.finish, scan.pos) :=
    map_eq_ok.mpr ⟨scan, walked, rfl⟩
  exact ⟨_, except_bind_eq_ok.mpr ⟨region, found, except_bind_eq_ok.mpr ⟨_, scanned, rfl⟩⟩⟩

theorem openBlock_total (forward : token.Forward) (leveled : token.Leveled) : ∃ next,
    page.openBlock progress token = .ok next := by
  obtain ⟨tag, tagged⟩ := Token.tag_total leveled true
  obtain ⟨region, found⟩ := @lineSpan?_total page progress token forward
  have placed : ∃ span, page.openingSpan progress token tag = .ok span := by
    unfold openingSpan
    cases region with
    | none => exact ⟨_, except_bind_eq_ok.mpr ⟨none, found, rfl⟩⟩
    | some lines => exact ⟨_, except_bind_eq_ok.mpr ⟨some lines, found, rfl⟩⟩
  obtain ⟨span, placed⟩ := placed
  exact ⟨_, except_bind_eq_ok.mpr ⟨tag, tagged, except_bind_eq_ok.mpr ⟨span, placed, rfl⟩⟩⟩

/-- A token that closes a block needs one that is open, and no other token needs anything. -/
theorem token_total (readable : token.Readable)
    (closing : token.nesting = .closing → token.hidden = false → progress.blocks ≠ []) :
    ∃ next, page.token progress token = .ok next := by
  unfold Page.token
  split
  · rename_i opening
    split
    · exact ⟨_, rfl⟩
    · rename_i shown
      exact openBlock_total readable.forward (readable.leveled opening (by simpa using shown))
  · rename_i closes
    split
    · exact ⟨_, rfl⟩
    · rename_i shown
      unfold closeBlock
      split
      · rename_i none
        exact absurd none (closing closes (by simpa using shown))
      · exact ⟨_, rfl⟩
  · rename_i alone
    split
    · rename_i inline
      exact inlineTokens_total readable.forward (readable.scannable alone inline)
    · exact codeBlock_total readable.forward
    · exact codeBlock_total readable.forward
    · obtain ⟨span, found⟩ := @lineSpan_total page progress token readable.forward
      exact ⟨_, except_bind_eq_ok.mpr ⟨span, found, rfl⟩⟩
    · obtain ⟨span, found⟩ := @lineSpan_total page progress token readable.forward
      exact ⟨_, except_bind_eq_ok.mpr ⟨span, found, rfl⟩⟩
    · exact ⟨_, rfl⟩

/-- A token opens and closes blocks as it says. -/
theorem token_blocks {next : Progress} (ran : page.token progress token = .ok next) :
    progress.blocks.length + (token.opens (!·.hidden)).toNat =
      next.blocks.length + (token.closes (!·.hidden)).toNat := by
  obtain ⟨added, contributes, -⟩ := token_contributes ran
  obtain ⟨_, left, _⟩ := next
  dsimp only at contributes
  cases contributes with
  | hides hidden paired => simp [Token.opens, Token.closes, hidden]
  | opens opening shown tagged => simp [Token.opens, Token.closes, opening, shown]
  | closes closing shown innermost => simp [Token.opens, Token.closes, closing, shown, innermost]
  | stands alone balanced covered => simp [Token.opens, Token.closes, alone]

/-- Readable tokens that can be closed are read to the end. -/
theorem tokens_total (closable : Token.Closable (!·.hidden) 0 tokens)
    (readable : ∀ token ∈ tokens, token.Readable) : ∃ after, page.tokens {} tokens = .ok after := by
  have goes : ∀ token ∈ tokens, ∀ progress : Progress,
      (token.closes (!·.hidden) = true → 0 < progress.blocks.length) → ∃ next,
      page.token progress token = .ok next ∧
      progress.blocks.length + (token.opens (!·.hidden)).toNat ≤
        next.blocks.length + (token.closes (!·.hidden)).toNat := by
    intro token member progress closing
    obtain ⟨next, stepped⟩ := @token_total page progress token (readable token member)
      fun closes shown => List.ne_nil_of_length_pos (closing (by simp [Token.closes, closes, shown]))
    exact ⟨next, stepped, Nat.le_of_eq (token_blocks stepped)⟩
  rw [tokens_eq_foldlM]
  obtain ⟨after, ran, -⟩ := @Token.Closable.foldlM_total Progress (!·.hidden) tokens 0 0 page.token
    (·.blocks.length) {} closable (Nat.le_refl _) goes
  exact ⟨after, ran⟩

/-- What is trimmed off a span is in it. -/
theorem le_trimmedEnd (span : Span) : span.start ≤ page.trimmedEnd span := by
  have ordered := span.ordered
  have short := (List.takeWhile_prefix isLineEnd (l := (span.text page.source).reverse)).length_le
  have within : (span.text page.source).length ≤ span.stop - span.start := List.length_take_le ..
  rw [List.length_reverse] at short
  unfold trimmedEnd
  omega

private theorem page_endsInOrder (page : Page) : EndsInOrder page where
  heading markup lines mark marked found := by
    have substance : markup ≠ [] := by
      rintro rfl
      cases marked
    have bounds := Text.find_bounds substance found
    rw [headingSpan, if_pos marked, found]
    exact Span.of_reach (by omega)
  content lines := Span.of_reach (le_trimmedEnd lines)
  bracket window pos stop found := by
    have further := Inline.Window.le_destinationEnd found
    rw [Inline.Window.bracketSpan, found]
    exact Span.of_reach (Nat.le_trans (Span.ordered _) further)
  code window markup pos := by
    intro first second closed
    have onward : first.stop ≤ second.start := Inline.Window.le_locate markup
    have several : ¬ second.isEmpty = true := by simp [closed]
    rw [Inline.Window.codeSpan, if_neg several]
    exact Span.of_reach (Nat.le_trans first.ordered (Nat.le_trans onward second.ordered))

end Page
end Block

/-- Tokens that never close more than is open, whose lines do not count back from the end and whose levels
are numbers, are read without a fault whatever else they say. After any front part of them everything that
is kept lies within the source, so nothing is looked up outside it, and no span is put together the wrong
way round. -/
theorem events_ofTokens_total {source : Text} {tokens : List Token}
    (closable : Token.Closable (!·.hidden) 0 tokens) (readable : ∀ token ∈ tokens, token.Readable) :
    let page : Block.Page := { source, lines := .ofText source }
    (∃ events, Event.ofTokens source tokens = .ok events) ∧
    (∀ front, front <+: tokens → ∃ progress, page.tokens {} front = .ok progress ∧
      Block.Sound page progress) ∧
    Block.EndsInOrder page := by
  intro page
  have begun : Block.Sound page {} := ⟨rfl, .nil, by simp, by simp, Nat.zero_le _⟩
  have fronts : ∀ front, front <+: tokens → ∃ progress, page.tokens {} front = .ok progress := by
    intro front before
    exact Block.Page.tokens_total (fun first part => closable first (part.trans before))
      fun token member => readable token (before.subset member)
  refine ⟨?_, ?_, Block.Page.page_endsInOrder page⟩
  · obtain ⟨progress, ran⟩ := fronts tokens List.prefix_rfl
    exact ⟨_, map_eq_ok.mpr ⟨progress, ran, rfl⟩⟩
  · intro front before
    obtain ⟨progress, ran⟩ := fronts front before
    exact ⟨progress, ran, Block.Page.tokens_keep _ Block.Page.token_sound begun ran⟩

/-- The words of an image, which leave an emphasis open. -/
def raggedWords : List Token := [
  { type := "strong_open", nesting := .opening, markup := ['*'] },
  { type := "text", content := ['a'] }]

/-- The image with those words, and an emphasis without marks that is open around it and closed twice. -/
def raggedInline : List Token := [
  { type := "em_open", nesting := .opening },
  { type := "strong_open", nesting := .opening },
  { type := "image", children := raggedWords },
  { type := "em_close", nesting := .closing },
  { type := "strong_close", nesting := .closing }]

/-- A heading of them, a code block whose lines are the wrong way round, and a fence that claims lines which
the source does not have. -/
def ragged : List Token := [
  { type := "heading_open", element := ['h', '1'], nesting := .opening, lines := some (0, 1),
    markup := ['#'] },
  { type := "inline", lines := some (0, 1), children := raggedInline },
  { type := "paragraph_close", nesting := .closing, hidden := true },
  { type := "heading_close", nesting := .closing },
  { type := "code_block", lines := some (2, 1), content := ['z'] },
  { type := "fence", lines := some (1, 9), markup := ['~'], content := ['x'] },
  { type := "figure" }]

private theorem ragged_readable : ∀ token ∈ ragged, token.Readable := by
  have forward : ∀ token ∈ ragged, token.Forward := by decide
  have one : (Text.decimal? '1').isSome = true := by decide
  have decimal : ∀ token ∈ ragged, ∀ c ∈ token.element.drop 1, (Text.decimal? c).isSome = true := by
    simpa [ragged] using one
  have short : ∀ token ∈ ragged, (token.element.drop 1).length ≤ 1 := by decide
  have ordinary : 1 ≤ Text.longestNumber := by simp [Text.longestNumber]
  have leveled : ∀ token ∈ ragged, token.Leveled := fun token member _ _ =>
    ⟨decimal token member, Nat.le_trans (short token member) ordinary⟩
  have words : Token.Scannable raggedWords := .of (by decide) (by decide) (by simp [raggedWords])
  have inline : Token.Scannable raggedInline :=
    .of (by decide) (by decide) (by simpa [raggedInline] using words)
  have scannable : ∀ token ∈ ragged, token.nesting = .alone → token.type = "inline" →
      Token.Scannable token.children := by
    simpa [ragged] using inline
  exact fun token member => ⟨forward token member, fun _ _ => leveled token member, scannable token member⟩

/-- The emphasis that the image leaves open is closed in its stead, and the image then by the end. -/
theorem ragged_events_total : Token.Closable (!·.hidden) 0 ragged ∧ (∀ token ∈ ragged, token.Readable) ∧
    ∃ events, Event.ofTokens ['#', ' ', '*', 'a', '\n', '~', '\n', 'x', '\r'] ragged = .ok events := by
  have closable : Token.Closable (!·.hidden) 0 ragged := by decide
  obtain ⟨read, -⟩ := @events_ofTokens_total ['#', ' ', '*', 'a', '\n', '~', '\n', 'x', '\r'] ragged
    closable ragged_readable
  exact ⟨closable, ragged_readable, read⟩

end Emend
