import Mathlib
import Emend.Proofs.Markup.Rendering

/-! How far a link with a title is taken to reach, and how far a code span. Both ends are looked for by
single characters. A link ends with the parenthesis that settles its first one, whether or not parentheses
on the way stand in the title; a code span ends with the next copy of its marks, be it the beginning of a
longer run of them. -/
namespace Emend

namespace Text
variable {text front other rest : Text} {c mark : Char} {depth next offset stop count : Nat}

/-- Read behind so many open parentheses, the text closes the outermost of them with its last character. -/
structure Closes (depth : Nat) (text : Text) : Prop where
  settled : text.count ')' = depth + text.count '('
  pending : ∀ front, front <+: text → front ≠ text → front.count ')' < depth + front.count '('

/-- As many parentheses close as open, and none closes before one has opened for it. -/
structure ParensMatch (text : Text) : Prop where
  settled : text.count ')' = text.count '('
  pending : ∀ front, front <+: text → front.count ')' ≤ front.count '('

instance (text : Text) : Decidable text.ParensMatch :=
  decidable_of_iff (text.count ')' = text.count '(' ∧
    ∀ front ∈ text.inits, front.count ')' ≤ front.count '(') (by
      simp only [List.mem_inits]
      exact ⟨fun ⟨settled, pending⟩ => ⟨settled, pending⟩, fun ⟨settled, pending⟩ => ⟨settled, pending⟩⟩)

private theorem closes_nil (positive : 0 < depth) : ¬ Closes depth [] := by
  intro closes
  have settled := closes.settled
  simp only [List.count_nil] at settled
  omega

/-- Nothing is left to close when nothing is open. -/
private theorem closes_zero : Closes 0 text ↔ text = [] := by
  constructor
  · intro closes
    by_contra substance
    have first := closes.pending [] List.nil_prefix (Ne.symm substance)
    simp at first
  · rintro rfl
    exact ⟨rfl, fun front before other => absurd (List.prefix_nil.mp before) other⟩

private theorem closes_cons (positive : 0 < depth)
    (steps : next + (if c = ')' then 1 else 0) = depth + if c = '(' then 1 else 0) :
    Closes depth (c :: rest) ↔ Closes next rest := by
  have settled (front : Text) : ((c :: front).count ')' = depth + (c :: front).count '(' ↔
      front.count ')' = next + front.count '(') ∧
      ((c :: front).count ')' < depth + (c :: front).count '(' ↔
        front.count ')' < next + front.count '(') := by
    simp only [List.count_cons, beq_iff_eq]
    omega
  constructor
  · intro closes
    refine ⟨(settled rest).1.mp closes.settled, fun front before other => ?_⟩
    have longer : c :: front <+: c :: rest := List.cons_prefix_cons.mpr ⟨rfl, before⟩
    exact (settled front).2.mp (closes.pending _ longer (by simpa using other))
  · intro closes
    refine ⟨(settled rest).1.mpr closes.settled, fun front before other => ?_⟩
    rcases List.prefix_cons_iff.mp before with rfl | ⟨shorter, rfl, within⟩
    · simpa using positive
    · exact (settled shorter).2.mpr (closes.pending shorter within (by simpa using other))

/-- Text without parentheses closes nothing. -/
theorem closes_append (positive : 0 < depth) (plain : '(' ∉ front ∧ ')' ∉ front) :
    Closes depth (front ++ text) ↔ Closes depth text := by
  induction front with
  | nil => rfl
  | cons c front ih =>
    simp only [List.mem_cons, not_or] at plain
    obtain ⟨⟨notOpening, plainOpening⟩, notClosing, plainClosing⟩ := plain
    have steps : depth + (if c = ')' then 1 else 0) = depth + if c = '(' then 1 else 0 := by
      rw [if_neg (Ne.symm notOpening), if_neg (Ne.symm notClosing)]
    rw [List.cons_append, closes_cons positive steps, ih ⟨plainOpening, plainClosing⟩]

/-- Of one text only one front part closes what is open. -/
theorem Closes.unique (closes : Closes depth front) (others : Closes depth other)
    (before : front <+: text) (beside : other <+: text) : front = other := by
  have shorter {less more : Text} (closes : Closes depth less) (others : Closes depth more)
      (before : less <+: more) : less = more := by
    by_contra differ
    have pending := others.pending less before differ
    have settled := closes.settled
    omega
  rcases List.prefix_or_prefix_of_prefix before beside with before | before
  · exact shorter closes others before
  · exact (shorter others closes before).symm

/-- Up to the quote and the parenthesis behind it, the title's own parentheses are all that counts. -/
theorem closes_title {title : Text} : Closes 1 (title ++ ['"', ')']) ↔ title.ParensMatch := by
  constructor
  · rintro ⟨settled, pending⟩
    refine ⟨?_, fun front before => ?_⟩
    · simp only [List.count_append, List.count_cons, List.count_nil, beq_iff_eq, Char.reduceEq,
        ↓reduceIte] at settled
      omega
    · have shorter : front ≠ title ++ ['"', ')'] := by
        rintro rfl
        have length := before.length_le
        simp at length
      have waiting := pending front (before.trans (List.prefix_append ..)) shorter
      omega
  · rintro ⟨settled, pending⟩
    refine ⟨?_, fun front before other => ?_⟩
    · simp only [List.count_append, List.count_cons, List.count_nil, beq_iff_eq, Char.reduceEq,
        ↓reduceIte]
      omega
    · have split : title ++ ['"', ')'] = title ++ ['"'] ++ [')'] := by simp
      rw [split] at before other
      rcases List.prefix_concat_iff.mp before with same | before
      · exact absurd same other
      · rcases List.prefix_concat_iff.mp before with rfl | before
        · simp only [List.count_append, List.count_cons, List.count_nil, beq_iff_eq, Char.reduceEq,
            ↓reduceIte]
          omega
        · have matching := pending front before
          omega

/-- The text holds a run of exactly so many copies of a character, with no further copy beside it. -/
def HasRun (text : Text) (mark : Char) (length : Nat) : Prop :=
  ∃ before after, text = before ++ List.replicate length mark ++ after ∧
    mark ∉ before.getLast? ∧ mark ∉ after.head?

instance (text : Text) (mark : Char) (length : Nat) : Decidable (text.HasRun mark length) :=
  decidable_of_iff (∃ before ∈ text.inits,
    text = before ++ List.replicate length mark ++ text.drop (before.length + length) ∧
      mark ∉ before.getLast? ∧ mark ∉ (text.drop (before.length + length)).head?) (by
    constructor
    · rintro ⟨before, -, whole, starts, ends⟩
      exact ⟨before, _, whole, starts, ends⟩
    · rintro ⟨before, after, rfl, starts, ends⟩
      have behind : (before ++ List.replicate length mark ++ after).drop (before.length + length) = after :=
        List.drop_left' (by simp)
      have front : before <+: before ++ List.replicate length mark ++ after :=
        ⟨List.replicate length mark ++ after, (List.append_assoc ..).symm⟩
      exact ⟨before, (List.mem_inits ..).mpr front, by rw [behind], starts, by rwa [behind]⟩)

private theorem exists_leading_run (mark : Char) (text : Text) : ∃ length rest,
    text = List.replicate length mark ++ rest ∧ mark ∉ rest.head? := by
  induction text with
  | nil => exact ⟨0, [], rfl, nofun⟩
  | cons c text ih =>
    by_cases same : c = mark
    · subst same
      obtain ⟨length, rest, whole, ends⟩ := ih
      exact ⟨length + 1, rest, by rw [whole, List.replicate_succ, List.cons_append], ends⟩
    · exact ⟨0, c :: text, rfl, by simpa using same⟩

private theorem exists_trailing_run (mark : Char) (text : Text) : ∃ length rest,
    text = rest ++ List.replicate length mark ∧ mark ∉ rest.getLast? := by
  obtain ⟨length, rest, whole, ends⟩ := exists_leading_run mark text.reverse
  refine ⟨length, rest.reverse, ?_, by simpa using ends⟩
  rw [← List.reverse_reverse text, whole, List.reverse_append, List.reverse_replicate]

/-- Copies of a character that stand in a row belong to a run of at least as many. -/
theorem exists_run {before after : Text} (whole : text = before ++ List.replicate count mark ++ after) :
    ∃ length, count ≤ length ∧ text.HasRun mark length := by
  obtain ⟨left, outerBefore, rfl, endsBefore⟩ := exists_trailing_run mark before
  obtain ⟨right, outerAfter, rfl, endsAfter⟩ := exists_leading_run mark after
  refine ⟨left + count + right, by omega, outerBefore, outerAfter, ?_, endsBefore, endsAfter⟩
  rw [whole]
  simp only [List.replicate_add, List.append_assoc]

/-- The shortest front part of the text that the marks follow, when they follow all of it as well. -/
structure UpTo (marks text front : Text) : Prop where
  follows : front ++ marks <+: text ++ marks
  shortest : ∀ other, other ++ marks <+: text ++ marks → front.length ≤ other.length

private theorem exists_upTo (marks text : Text) : ∃ front, UpTo marks text front := by
  let follows (length : Nat) : Prop := (text ++ marks).take length ++ marks <+: text ++ marks
  have whole : follows text.length := by simp [follows]
  classical
  refine ⟨(text ++ marks).take (Nat.find ⟨_, whole⟩), Nat.find_spec ⟨_, whole⟩, fun other before => ?_⟩
  have same : (text ++ marks).take other.length = other :=
    (List.prefix_iff_eq_take.mp ((List.prefix_append other marks).trans before)).symm
  have found : follows other.length := by simpa only [follows, same] using before
  exact Nat.le_trans (List.length_take_le ..) (Nat.find_min' ⟨_, whole⟩ found)

namespace UpTo
variable {marks : Text}

private theorem length_le (upTo : UpTo marks text front) : front.length ≤ text.length :=
  upTo.shortest text (List.prefix_refl _)

private theorem front_prefix (upTo : UpTo marks text front) : front <+: text :=
  List.prefix_of_prefix_length_le ((List.prefix_append ..).trans upTo.follows) (List.prefix_append ..)
    upTo.length_le

/-- A search for the marks from the start of the text ends at the front part. -/
theorem seek_eq (upTo : UpTo marks text front) :
    seek marks (front ++ marks) 0 = some front.length := by
  cases hit : seek marks (front ++ marks) 0 with
  | none =>
    have missed := seek_never hit front.length
    rw [List.drop_left] at missed
    exact absurd (List.prefix_refl marks) missed
  | some found =>
    have bounds := seek_bounds hit
    have stands := seek_stands hit
    rw [Nat.sub_zero] at stands
    obtain ⟨rest, whole⟩ := stands
    have earlier : (front ++ marks).take found ++ marks <+: text ++ marks := by
      refine List.IsPrefix.trans ⟨rest, ?_⟩ upTo.follows
      rw [List.append_assoc, whole, List.take_append_drop]
    have least := upTo.shortest _ earlier
    rw [List.length_take] at least
    simp only [List.length_append] at bounds least
    congr 1
    omega

/-- When the text does not end with a mark, the marks follow first behind all of it just if all runs of the
mark in it are shorter. -/
theorem eq_text_iff {text front : Text} (positive : 0 < count) (ends : mark ∉ text.getLast?)
    (upTo : UpTo (List.replicate count mark) text front) :
    front = text ↔ ∀ length, text.HasRun mark length → length < count := by
  constructor
  · rintro rfl length ⟨before, after, whole, -, -⟩
    by_contra longer
    obtain ⟨more, rfl⟩ := Nat.exists_eq_add_of_le (Nat.le_of_not_lt longer)
    have follows : before ++ List.replicate count mark <+: front ++ List.replicate count mark := by
      rw [whole, List.replicate_add]
      exact ⟨List.replicate more mark ++ after ++ List.replicate count mark, by
        simp only [List.append_assoc]⟩
    have least := upTo.shortest before follows
    have length := congrArg List.length whole
    simp only [List.length_append, List.length_replicate] at length
    omega
  · intro short
    obtain ⟨rest, rfl⟩ := upTo.front_prefix
    obtain ⟨others, follows⟩ := upTo.follows
    rw [List.append_assoc, List.append_assoc, List.append_cancel_left_eq] at follows
    -- The marks that follow the front part lie inside the text, or else they end it with a mark.
    rcases List.append_eq_append_iff.mp follows with ⟨inner, rfl, -⟩ | ⟨left, marks, -⟩
    · obtain ⟨length, longer, run⟩ := exists_run (List.append_assoc front _ inner).symm
      exact absurd (short length run) (Nat.not_lt.mpr longer)
    · rcases List.eq_nil_or_concat rest with rfl | ⟨most, last, rfl⟩
      · exact (List.append_nil _).symm
      · have member : last ∈ List.replicate count mark := by
          rw [marks]
          simp
        rw [List.eq_of_mem_replicate member] at ends
        simp at ends

end UpTo
end Text

namespace Inline

namespace Window
variable {window : Window} {pos paren stop : Nat} {destination title : Text}

private theorem Reads.stop_le {text : Text} (reads : window.Reads pos text) (substance : text ≠ []) :
    pos + text.length ≤ window.limit := by
  have length := reads.length_le
  have filled := List.length_pos_iff.mpr substance
  simp only [Text.slice, List.length_take] at length
  omega

/-- Where a link stops whose destination starts with the parenthesis at `paren`: behind the first text that
closes it, or before it when nothing up to the limit does. -/
inductive Settled (window : Window) (paren : Nat) : Nat → Prop where
  | closed {front : Text} (reads : window.Reads (paren + 1) front) (closes : front.Closes 1) :
    Settled window paren (paren + 1 + front.length)
  | unclosed (never : ∀ front : Text, window.Reads (paren + 1) front → ¬ front.Closes 1) :
    Settled window paren paren

/-- The parenthesis that is found is the one that settles those open before it. -/
theorem matchingParen_eq_some_iff {text : Text} {depth offset : Nat} (positive : 0 < depth) :
    matchingParen text depth offset = some stop ↔
      ∃ front : Text, front <+: text ∧ front.Closes depth ∧ stop = offset + front.length := by
  induction text generalizing depth offset with
  | nil =>
    refine ⟨nofun, ?_⟩
    rintro ⟨front, before, closes, -⟩
    rw [List.prefix_nil.mp before] at closes
    exact absurd closes (Text.closes_nil positive)
  | cons c rest ih =>
    -- What closes begins with the first character, so the rest of it is looked for in the rest.
    have longer {next : Nat} (steps : next + (if c = ')' then 1 else 0) =
        depth + if c = '(' then 1 else 0) :
        (∃ front : Text, front <+: c :: rest ∧ front.Closes depth ∧ stop = offset + front.length) ↔
          ∃ front : Text, front <+: rest ∧ front.Closes next ∧ stop = offset + 1 + front.length := by
      constructor
      · rintro ⟨front, before, closes, rfl⟩
        rcases List.prefix_cons_iff.mp before with rfl | ⟨front, rfl, within⟩
        · exact absurd closes (Text.closes_nil positive)
        · refine ⟨front, within, (Text.closes_cons positive steps).mp closes, ?_⟩
          rw [List.length_cons]
          omega
      · rintro ⟨front, within, closes, rfl⟩
        refine ⟨c :: front, List.cons_prefix_cons.mpr ⟨rfl, within⟩,
          (Text.closes_cons positive steps).mpr closes, ?_⟩
        rw [List.length_cons]
        omega
    unfold matchingParen
    by_cases opens : c = '('
    · rw [if_pos opens, ih (Nat.succ_pos depth), @longer (depth + 1) (by simp [opens])]
    rw [if_neg opens]
    by_cases shuts : c = ')'
    · rw [if_pos shuts]
      by_cases outermost : depth = 1
      · rw [if_pos outermost, @longer 0 (by simp [shuts, outermost])]
        simp only [Text.closes_zero, Option.some.injEq]
        constructor
        · rintro rfl
          exact ⟨[], List.nil_prefix, rfl, rfl⟩
        · rintro ⟨front, -, rfl, rfl⟩
          rfl
      · rw [if_neg outermost, ih (by omega), @longer (depth - 1) (by
          rw [if_pos shuts, if_neg opens]
          omega)]
    · rw [if_neg shuts, ih positive, @longer depth (by rw [if_neg opens, if_neg shuts])]

/-- The bracket that closes a link's name takes the destination with it up to where that is settled. -/
theorem bracketSpan_settled (reads : window.Reads pos [']', '(']) : ∃ stop,
    window.bracketSpan pos = .reach pos stop ∧ window.Settled (pos + 1) stop := by
  have split : window.Reads pos ([']'] ++ ['(']) := reads
  have bracket : window.locate [']'] pos = .reach pos (pos + 1) := locate_here split.of_append_left
  have begins : (Span.reach pos (pos + 1)).stop = pos + 1 := Nat.max_eq_right (Nat.le_add_right ..)
  obtain ⟨rest, whole⟩ := split.of_append_right
  have inside : window.source.slice (pos + 1 + 1) window.limit = rest := by
    have dropped := congrArg (List.drop 1) whole
    rw [List.cons_append, List.drop_succ_cons, List.drop_zero] at dropped
    rw [List.nil_append, List.length_singleton] at dropped
    rw [dropped, Text.slice, Text.slice, List.drop_take, List.drop_drop, Nat.sub_sub]
  have ends : window.destinationEnd (pos + 1) = matchingParen rest 1 (pos + 1 + 1) := by
    have here : window.source.slice (pos + 1) window.limit = '(' :: rest := whole.symm
    simp only [destinationEnd, here]
  simp only [bracketSpan, bracket, begins, ends]
  cases found : matchingParen rest 1 (pos + 1 + 1) with
  | some stop =>
    obtain ⟨front, before, closes, rfl⟩ := (matchingParen_eq_some_iff Nat.one_pos).mp found
    rw [← inside] at before
    exact ⟨_, rfl, .closed before closes⟩
  | none =>
    refine ⟨pos + 1, rfl, .unclosed fun front before closes => ?_⟩
    rw [Reads, inside] at before
    have hit : matchingParen rest 1 (pos + 1 + 1) = some (pos + 1 + 1 + front.length) :=
      (matchingParen_eq_some_iff Nat.one_pos).mpr ⟨front, before, closes, rfl⟩
    rw [found] at hit
    cases hit

/-- What settles the parenthesis of a destination with a title is the one behind the title, just if the
title's own parentheses match. -/
theorem Settled.eq_iff (settled : window.Settled paren stop) (plain : '(' ∉ destination ∧ ')' ∉ destination)
    (reads : window.Reads (paren + 1) (destination ++ ([' ', '"'] ++ (title ++ ['"', ')'])))) :
    stop = paren + 1 + (destination ++ ([' ', '"'] ++ (title ++ ['"', ')']))).length ↔
      title.ParensMatch := by
  have quoted : (destination ++ ([' ', '"'] ++ (title ++ ['"', ')']))).Closes 1 ↔ title.ParensMatch := by
    rw [Text.closes_append Nat.one_pos plain, Text.closes_append Nat.one_pos (by simp), Text.closes_title]
  rw [← quoted]
  cases settled with
  | closed before closes =>
    constructor
    · intro same
      have length := Nat.add_left_cancel same
      have equal := (List.prefix_of_prefix_length_le before reads (Nat.le_of_eq length)).eq_of_length length
      exact equal ▸ closes
    · intro whole
      rw [closes.unique whole before reads]
  | unclosed never => exact ⟨fun same => by omega, fun whole => absurd whole (never _ reads)⟩

end Window

namespace Scan
variable {window : Window} {scan after : Scan} {events more : List Event} {pos start : Nat} {span : Span}

/-- These events stand together among those let go, or in an element that is held back. -/
def Carries (scan : Scan) (events : List Event) : Prop :=
  events <:+: scan.done ∨ ∃ held ∈ scan.held, events <:+: held.inner

private theorem carries_add : (scan.add events).Carries events := by
  unfold add
  split
  · exact .inl (List.suffix_append ..).isInfix
  · exact .inr ⟨_, List.mem_cons_self, (List.suffix_append ..).isInfix⟩

private theorem Carries.add_carries (carries : scan.Carries events) :
    ({ scan with pos }.add more).Carries events := by
  unfold Scan.add
  obtain within | ⟨held, member, within⟩ := carries
  · split
    · exact .inl (within.trans (List.prefix_append ..).isInfix)
    · exact .inl within
  · split
    · rename_i none
      rw [none] at member
      cases member
    · rename_i innermost outer some
      rw [some] at member
      rcases List.mem_cons.mp member with rfl | member
      · exact .inr ⟨_, List.mem_cons_self, within.trans (List.prefix_append ..).isInfix⟩
      · exact .inr ⟨held, List.mem_cons_of_mem _ member, within⟩

private theorem close_carries {held : Held} (within : events <:+: held.inner) : events <:+: held.close span :=
  within.trans (List.infix_append [_] held.inner [_])

private theorem Carries.release_carries (carries : scan.Carries events)
    (ran : scan.release span = .ok after) :
    after.Carries events := by
  unfold Scan.release at ran
  split at ran
  · cases ran
  · rename_i innermost outer some
    cases ran
    obtain within | ⟨held, member, within⟩ := carries
    · have carries : Carries { scan with held := outer } events := .inl within
      exact carries.add_carries
    · rw [some] at member
      rcases List.mem_cons.mp member with rfl | member
      · have closed : events <:+: held.close span := close_carries within
        obtain within | ⟨held, member, within⟩ := @carries_add { scan with pos := span.stop, held := outer }
          (held.close span)
        · exact .inl (closed.trans within)
        · exact .inr ⟨held, member, closed.trans within⟩
      · have carries : Carries { scan with held := outer } events := .inr ⟨held, member, within⟩
        exact carries.add_carries

private theorem carries_kept (events : List Event) :
    Kept window fun scan => scan.pos ≤ window.limit ∧ scan.Carries events where
  within holds := holds.1
  hold {scan span token tag} holds tagged ahead := by
    refine ⟨ahead.2, ?_⟩
    obtain within | ⟨held, member, within⟩ := holds.2
    · exact .inl within
    · exact .inr ⟨held, List.mem_cons_of_mem _ member, within⟩
  release {scan after span} holds ahead ran := by
    obtain ⟨held, earlier, -, -, -, stands⟩ := release_found ran
    exact ⟨stands ▸ ahead.2, holds.2.release_carries ran⟩
  leaf {scan token event} holds ahead found := by
    have stands : ({ scan with pos := event.stop }.add [event]).pos = event.stop := add_pos
    exact ⟨stands.symm ▸ ahead.2, holds.2.add_carries⟩

private theorem closeAll_carries {held : List Held} {inner : List Event}
    (carries : events <:+: inner ∨ ∃ element ∈ held, events <:+: element.inner) :
    events <:+: closeAll pos held inner := by
  induction held generalizing inner with
  | nil => exact carries.resolve_right (by simp)
  | cons element outer ih =>
    apply ih
    obtain within | ⟨found, member, within⟩ := carries
    · exact .inl (close_carries (within.trans (List.suffix_append ..).isInfix))
    · rcases List.mem_cons.mp member with rfl | member
      · exact .inl (close_carries (within.trans (List.prefix_append ..).isInfix))
      · exact .inr ⟨found, member, within⟩

/-- Events that a scan has added stand together in the end, whatever tokens follow. -/
theorem events_carry {before later : List Token} {found : List Event} {stop : Nat}
    (walked : Scan.tokens window { pos := start } before = .ok ({ scan with pos }.add events))
    (within : pos ≤ window.limit)
    (ran : Inline.events window start (before ++ later) = .ok (found, stop)) : events <:+: found := by
  obtain ⟨last, goes, result⟩ := map_eq_ok.mp ran
  cases result
  obtain ⟨between, came, goes⟩ := tokens_append_eq_ok.mp goes
  rw [walked] at came
  cases came
  have added : ({ scan with pos }.add events).pos = pos := add_pos
  obtain ⟨-, carries⟩ := (carries_kept events).tokens_hold later ⟨added.symm ▸ within, carries_add⟩ goes
  obtain within | carries := carries
  · exact within.trans (List.prefix_append ..).isInfix
  · exact (closeAll_carries (.inr carries)).trans (List.suffix_append ..).isInfix

end Scan

/-- The tokens of a link whose name is one text. -/
structure LinkTokens (name : Text) (opening text closing : Token) : Prop where
  opens : opening.nesting = .opening ∧ opening.type = "link_open" ∧ opening.markup ≠ "autolink".toList
  names : text.nesting = .alone ∧ text.type = "text" ∧ text.content = name
  closes : closing.nesting = .closing ∧ closing.type = "link_close" ∧ closing.markup ≠ "autolink".toList

def titledLink (name destination title : Text) : Text :=
  ['['] ++ name ++ ([']', '('] ++ (destination ++ ([' ', '"'] ++ (title ++ ['"', ')']))))

def linkTag (opening : Token) : Tag where
  kind := .link
  block := false
  name := "link"
  url := opening.attributes.lookup "href"
  title := opening.attributes.lookup "title"

def linkName (name : Text) (start : Nat) : List Event :=
  if name.isEmpty then [] else [{ kind := .text, span := .reach start (start + name.length), text := name }]

/-- The events of a link from one offset up to another, whose name is one text. -/
def linkEvents (tag : Tag) (name : Text) (start stop : Nat) : List Event :=
  { kind := .opening, span := .reach start stop, tag := some tag } :: linkName name (start + 1) ++
    [{ kind := .closing, span := .reach (start + 1 + name.length) stop, tag := some tag }]

namespace Scan
variable {window : Window} {scan : Scan} {name : Text} {opening text closing : Token} {stop : Nat}

/-- The scan behind the bracket that opens a link. -/
def bracketed (scan : Scan) (opening : Token) : Scan :=
  scan.hold (linkTag opening) (.reach scan.pos (scan.pos + 1))

/-- The scan behind the name of a link. -/
def named (scan : Scan) (opening : Token) (name : Text) : Scan :=
  (scan.bracketed opening).advance name.length (linkName name (scan.pos + 1))

private theorem bracketed_pos : (scan.bracketed opening).pos = scan.pos + 1 :=
  Nat.max_eq_right (Nat.le_succ _)

private theorem named_pos : (scan.named opening name).pos = scan.pos + 1 + name.length := by
  rw [named, advance_pos, bracketed_pos]

private theorem token_brackets (told : LinkTokens name opening text closing)
    (reads : window.Reads scan.pos ['[']) :
    Scan.token window scan opening = .ok (scan.bracketed opening) := by
  obtain ⟨opens, type, plain⟩ := told.opens
  have tagged : opening.tag false = .ok (linkTag opening) := by
    have called : opening.name = "link" := by
      rw [Token.name, type]
      rfl
    exact tag_eq_of_name called (by decide)
  have begins : window.openingSpan opening scan.pos = .reach scan.pos (scan.pos + 1) := by
    rw [Window.openingSpan, if_pos type, if_neg plain]
    exact Window.locate_here reads
  rw [token_eq, opens]
  simp only [tagged, begins, Except.map]
  rfl

private theorem token_names (told : LinkTokens name opening text closing)
    (reads : window.Reads (scan.pos + 1) name) :
    Scan.token window (scan.bracketed opening) text = .ok (scan.named opening name) := by
  obtain ⟨alone, type, content⟩ := told.names
  have here : window.locate name (scan.pos + 1) = .reach (scan.pos + 1) (scan.pos + 1 + name.length) :=
    Window.locate_here reads
  have reached : (Span.reach (scan.pos + 1) (scan.pos + 1 + name.length)).stop = scan.pos + 1 + name.length :=
    Nat.max_eq_right (Nat.le_add_right ..)
  rw [token_eq, alone, bracketed_pos]
  by_cases empty : name = []
  · have still : scan.named opening name = scan.bracketed opening := by
      rw [named, linkName, empty]
      exact advance_nothing
    rw [still]
    simp [type, Window.leaf?, content, empty]
  · simp [type, Window.leaf?, content, named, linkName, empty, here, Event.stop, reached, advance,
      bracketed_pos]

/-- The closing bracket lets the link go as far as the bracket is taken to reach. -/
theorem token_closes (told : LinkTokens name opening text closing)
    (ends : window.bracketSpan (scan.pos + 1 + name.length) = .reach (scan.pos + 1 + name.length) stop)
    (behind : scan.pos + 1 + name.length ≤ stop) :
    Scan.token window (scan.named opening name) closing =
      .ok ({ scan with pos := stop }.add (linkEvents (linkTag opening) name scan.pos stop)) := by
  obtain ⟨closes, type, plain⟩ := told.closes
  let bracket := scan.pos + 1 + name.length
  let held : Held := {
    opening := { kind := .opening, span := .reach scan.pos (scan.pos + 1), tag := some (linkTag opening) }
    inner := linkName name (scan.pos + 1) }
  have released : (scan.named opening name).release (.reach bracket stop) =
      .ok ({ scan with pos := (Span.reach bracket stop).stop }.add (held.close (.reach bracket stop))) :=
    rfl
  have reached : (Span.reach bracket stop).stop = stop := Nat.max_eq_right behind
  have whole : Span.reach held.opening.start (max held.opening.stop stop) = .reach scan.pos stop := by
    simp only [held, Event.start, Event.stop, Span.reach, Span.mk.injEq, true_and]
    omega
  have closed : held.close (.reach bracket stop) = linkEvents (linkTag opening) name scan.pos stop := by
    rw [Held.close, reached, whole]
    rfl
  have found : window.closingSpan closing bracket = .reach bracket stop := by
    rw [Window.closingSpan, if_pos type, if_neg plain]
    exact ends
  rw [token_eq, closes, named_pos]
  dsimp only
  rw [found, released, reached, closed]

theorem tokens_link (told : LinkTokens name opening text closing)
    (reads : window.Reads scan.pos (['['] ++ name))
    (ends : window.bracketSpan (scan.pos + 1 + name.length) = .reach (scan.pos + 1 + name.length) stop)
    (behind : scan.pos + 1 + name.length ≤ stop) :
    Scan.tokens window scan [opening, text, closing] =
      .ok ({ scan with pos := stop }.add (linkEvents (linkTag opening) name scan.pos stop)) := by
  simp only [Scan.tokens, token_brackets told reads.of_append_left, token_names told reads.of_append_right,
    token_closes told ends behind]

end Scan
end Inline

open Inline in
/-- A link with a title stops where its first parenthesis is settled, by whatever parentheses come next in
the title or behind it. So it stops at its own end just if the parentheses in the title match. -/
theorem link_events_settled {window : Window} {start : Nat} {before : List Token} {scan : Scan}
    {name destination title : Text} {opening text closing : Token}
    (came : Scan.tokens window { pos := start } before = .ok scan)
    (told : LinkTokens name opening text closing)
    (reads : window.Reads scan.pos (titledLink name destination title))
    (plain : '(' ∉ destination ∧ ')' ∉ destination) :
    ∃ stop, window.Settled (scan.pos + 1 + name.length + 1) stop ∧
      let link := linkEvents (linkTag opening) name scan.pos stop
      Scan.tokens window { pos := start } (before ++ [opening, text, closing]) =
        .ok ({ scan with pos := stop }.add link) ∧
      (∀ later found last,
        events window start (before ++ [opening, text, closing] ++ later) = .ok (found, last) →
          link <:+: found) ∧
      (stop = scan.pos + (titledLink name destination title).length ↔ title.ParensMatch) := by
  have split : window.Reads scan.pos (['['] ++ name ++ ([']', '('] ++
      (destination ++ ([' ', '"'] ++ (title ++ ['"', ')']))))) := reads
  have length : scan.pos + (['['] ++ name).length = scan.pos + 1 + name.length := by
    simp only [List.length_append, List.length_singleton, Nat.add_assoc]
  have bracketed := split.of_append_right
  rw [length] at bracketed
  have inside : scan.pos + 1 + name.length ≤ window.limit :=
    Nat.le_trans (Nat.le_add_right ..) (bracketed.stop_le (by simp))
  obtain ⟨stop, ends, settled⟩ := Window.bracketSpan_settled bracketed.of_append_left
  have behind : scan.pos + 1 + name.length ≤ stop := by
    cases settled <;> omega
  have stopped : (Span.reach (scan.pos + 1 + name.length) stop).stop = stop := Nat.max_eq_right behind
  have limited : stop ≤ window.limit := by
    have ahead := (Window.bracketSpan_ahead inside).2
    rwa [ends, stopped] at ahead
  have walked : Scan.tokens window { pos := start } (before ++ [opening, text, closing]) = .ok
      ({ scan with pos := stop }.add (linkEvents (linkTag opening) name scan.pos stop)) :=
    Scan.tokens_append_eq_ok.mpr ⟨scan, came, Scan.tokens_link told split.of_append_left ends behind⟩
  refine ⟨stop, settled, walked, fun later found last ran => Scan.events_carry walked limited ran, ?_⟩
  rw [← settled.eq_iff plain bracketed.of_append_right]
  simp only [titledLink, List.length_append, List.length_cons, List.length_nil]
  omega

/-- An emphasis around the link `[a](u "(b)")`, with one more parenthesis behind it. -/
def pairedTitle : Text := '*' :: Inline.titledLink ['a'] ['u'] ['(', 'b', ')'] ++ [')', '*']

def pairedOpening : Token :=
  { type := "link_open", nesting := .opening, attributes := [("href", ['u']), ("title", ['(', 'b', ')'])] }

open Inline in
/-- The parentheses in the title match, so the link is found whole. -/
theorem pairedTitle_link_settled : ∃ found last,
    events { source := pairedTitle, limit := 15 } 0 [
      { type := "em_open", nesting := .opening, markup := ['*'] },
      pairedOpening,
      { type := "text", content := ['a'] },
      { type := "link_close", nesting := .closing },
      { type := "em_close", nesting := .closing, markup := ['*'] }] = .ok (found, last) ∧
    linkEvents (linkTag pairedOpening) ['a'] 1 13 <:+: found := by
  let emphasis : Token := { type := "em_open", nesting := .opening, markup := ['*'] }
  let closing : Token := { type := "link_close", nesting := .closing }
  let held : Held := { opening := {
    kind := .opening, span := .reach 0 1
    tag := some { kind := .emphasis, block := false, name := "em" } } }
  let scan : Scan := { pos := 1, held := [held] }
  have came : Scan.tokens { source := pairedTitle, limit := 15 } { pos := 0 } [emphasis] = .ok scan := by
    rfl
  have told : LinkTokens ['a'] pairedOpening { type := "text", content := ['a'] } closing :=
    ⟨⟨rfl, rfl, by decide⟩, ⟨rfl, rfl, rfl⟩, rfl, rfl, by decide⟩
  have reads : Window.Reads { source := pairedTitle, limit := 15 } scan.pos
      (titledLink ['a'] ['u'] ['(', 'b', ')']) :=
    ⟨[')', '*'], rfl⟩
  obtain ⟨stop, -, -, placed, whole⟩ := link_events_settled came told reads (by decide)
  have reached : stop = 13 := whole.mpr (by decide)
  rw [reached] at placed
  exact ⟨_, _, rfl, placed [{ type := "em_close", nesting := .closing, markup := ['*'] }] _ _ rfl⟩

/-- The link `[a](u "b)c")`, whose title closes a parenthesis that it does not open. -/
def strayTitle : Text := Inline.titledLink ['a'] ['u'] ['b', ')', 'c'] ++ ['\n']

def strayTokens : List Token := [
  { type := "paragraph_open", nesting := .opening, lines := some (0, 1) },
  { type := "inline", lines := some (0, 1), children := [
    { type := "link_open", nesting := .opening, attributes := [("href", ['u']), ("title", ['b', ')', 'c'])] },
    { type := "text", content := ['a'] },
    { type := "link_close", nesting := .closing }] },
  { type := "paragraph_close", nesting := .closing }]

/-- The link is taken to stop in the middle of its title, with the parenthesis there. -/
theorem strayTitle_link_cut :
    let paragraph : Tag := { kind := .paragraph, name := "paragraph" }
    let link : Tag :=
      { kind := .link, block := false, name := "link", url := some ['u'], title := some ['b', ')', 'c'] }
    let whole : Span := .reach 0 12
    let events : List Event := [
      { kind := .opening, span := .reach 0 13, tag := some paragraph },
      { kind := .opening, span := .reach 0 9, tag := some link },
      { kind := .text, span := .reach 1 2, text := ['a'] },
      { kind := .closing, span := .reach 2 9, tag := some link },
      { kind := .closing, span := .point 12, tag := some paragraph }]
    Event.ofTokens strayTitle strayTokens = .ok events ∧
    whole.text strayTitle = Inline.titledLink ['a'] ['u'] ['b', ')', 'c'] ∧
    ∀ event ∈ events, event.kind = .opening → event.span ≠ whole := by
  intro paragraph link whole events
  exact ⟨rfl, rfl, by decide⟩

open Inline in
/-- A code span stops behind the first place in its content or at the end of it where its marks stand, and
the scan goes on from there. So it is whole just if all runs of the mark in the content are shorter than
those around it. -/
theorem code_events_upTo {window : Window} {start : Nat} {before : List Token} {scan : Scan}
    {token : Token} {mark : Char} {count : Nat} {raw : Text}
    (came : Scan.tokens window { pos := start } before = .ok scan)
    (alone : token.nesting = .alone) (type : token.type = "code_inline")
    (marked : token.markup = List.replicate count mark) (positive : 0 < count)
    (ends : mark ∉ raw.getLast?)
    (reads : window.Reads scan.pos (token.markup ++ raw ++ token.markup)) :
    ∃ inner, Text.UpTo token.markup raw inner ∧
      let span := token.markup ++ inner ++ token.markup
      let code : Event :=
        { kind := .code, span := .reach scan.pos (scan.pos + span.length), text := token.content }
      Scan.tokens window { pos := start } (before ++ [token]) = .ok (scan.advance span.length [code]) ∧
      (∀ later found last, events window start (before ++ [token] ++ later) = .ok (found, last) →
        code ∈ found) ∧
      (inner = raw ↔ ∀ length, raw.HasRun mark length → length < count) := by
  obtain ⟨inner, upTo⟩ := Text.exists_upTo token.markup raw
  have shorter : window.Reads scan.pos (token.markup ++ inner ++ token.markup) := by
    refine List.IsPrefix.trans ?_ reads
    rw [List.append_assoc, List.append_assoc]
    exact (List.prefix_append_right_inj token.markup).mpr upTo.follows
  let leaf : Leaf := .code token.markup inner token.content upTo.seek_eq
  have told : (Content.leaf leaf .nothing).ToldBy [token] := .leaf ⟨alone, type, rfl, rfl⟩ .nothing
  have rendered : (Content.leaf leaf .nothing).render = token.markup ++ inner ++ token.markup :=
    List.append_nil _
  have walked : Scan.tokens window { pos := start } (before ++ [token]) =
      .ok (scan.advance (Content.leaf leaf .nothing).render.length [leaf.event scan.pos]) :=
    Scan.tokens_append_eq_ok.mpr ⟨scan, came, Scan.tokens_read told (rendered.symm ▸ shorter)⟩
  rw [rendered] at walked
  refine ⟨inner, upTo, walked, fun later found last ran => ?_, ?_⟩
  · have marks : token.markup ≠ [] := by
      rw [marked]
      exact List.ne_nil_of_length_pos (by simpa using positive)
    have limited := shorter.stop_le (by simp [marks])
    exact (Scan.events_carry walked limited ran).subset List.mem_cons_self
  · rw [marked] at upTo
    exact upTo.eq_text_iff positive ends

def grave : Char := '\x60'

/-- A letter, and then code between double marks that holds a single one. -/
def doubleMarked : Text := ['x', grave, grave, 'a', grave, 'b', grave, grave]

def doubleMarkedCode : Token :=
  { type := "code_inline", markup := [grave, grave], content := ['a', grave, 'b'] }

open Inline in
/-- The single mark in the content is no run of two, so the code is found whole. -/
theorem doubleMarked_code_upTo : ∃ found last,
    events { source := doubleMarked, limit := 8 } 0
      [{ type := "text", content := ['x'] }, doubleMarkedCode] = .ok (found, last) ∧
    { kind := .code, span := .reach 1 8, text := ['a', grave, 'b'] } ∈ found := by
  let window : Window := { source := doubleMarked, limit := 8 }
  have came : Scan.tokens window { pos := 0 } [{ type := "text", content := ['x'] }] =
      .ok { pos := 1, done := [{ kind := .text, span := .reach 0 1, text := ['x'] }] } := by
    rfl
  have reads : window.Reads 1 ([grave, grave] ++ ['a', grave, 'b'] ++ [grave, grave]) := ⟨[], rfl⟩
  have alone : doubleMarkedCode.nesting = .alone := rfl
  have marked : doubleMarkedCode.markup = List.replicate 2 grave := rfl
  obtain ⟨inner, -, -, placed, whole⟩ :=
    code_events_upTo came alone rfl marked (by decide) (by decide) reads
  have single : inner = ['a', grave, 'b'] := whole.mpr fun length ⟨before, after, same, _, _⟩ => by
    have marks := congrArg (List.count grave) same
    simp only [List.count_append, List.count_replicate_self] at marks
    have one : List.count grave ['a', grave, 'b'] = 1 := by decide
    omega
  rw [single] at placed
  exact ⟨_, _, rfl, placed [] _ _ rfl⟩

/-- Code between single marks that holds two of them in a row. -/
def longerRun : Text := [grave, 'a', grave, grave, 'b', grave, '\n']

def longerRunTokens : List Token := [
  { type := "paragraph_open", nesting := .opening, lines := some (0, 1) },
  { type := "inline", lines := some (0, 1), children := [
    { type := "code_inline", markup := [grave], content := ['a', grave, grave, 'b'] }] },
  { type := "paragraph_close", nesting := .closing }]

/-- No run in the content has exactly one mark, but the code is taken to stop at the first of the two. -/
theorem longerRun_code_cut :
    let paragraph : Tag := { kind := .paragraph, name := "paragraph" }
    let whole : Span := .reach 0 6
    let events : List Event := [
      { kind := .opening, span := .reach 0 7, tag := some paragraph },
      { kind := .code, span := .reach 0 3, text := ['a', grave, grave, 'b'] },
      { kind := .closing, span := .point 6, tag := some paragraph }]
    Event.ofTokens longerRun longerRunTokens = .ok events ∧
    ¬ Text.HasRun ['a', grave, grave, 'b'] grave 1 ∧
    whole.text longerRun = [grave] ++ ['a', grave, grave, 'b'] ++ [grave] ∧
    ∀ event ∈ events, event.kind = .code → event.span ≠ whole := by
  intro paragraph whole events
  exact ⟨rfl, by decide, rfl, by decide⟩

end Emend
