import Mathlib
import Emend.Proofs.Source.LineOrder

/-! The number of a line is the number of breaks before it. A break is told here from the characters around
it, wherever it stands, and not by reading the text from its head. Reading from the head comes upon just
these breaks: it stops behind every line feed, and behind a carriage return unless a line feed follows, so
never within a break. Lines that start one after the other part at any offset in one place only, which is
the line of the offset and the place where a search ends that halves them. -/
namespace Emend

/-- A line break stands from one offset up to another: a carriage return with the line feed after it, or
either of them without the other. -/
inductive Text.BreakAt (text : Text) : Nat → Nat → Prop where
  | crlf {place : Nat} (cr : text[place]? = some '\r') (lf : text[place + 1]? = some '\n') :
      BreakAt text place (place + 2)
  | lf {place : Nat} (lf : text[place]? = some '\n')
      (alone : ∀ before, before + 1 = place → text[before]? ≠ some '\r') : BreakAt text place (place + 1)
  | cr {place : Nat} (cr : text[place]? = some '\r') (alone : text[place + 1]? ≠ some '\n') :
      BreakAt text place (place + 1)

/-- The last character of a line break stands here. -/
def Text.EndsBreak (text : Text) (place : Nat) : Prop :=
  text[place]? = some '\n' ∨ text[place]? = some '\r' ∧ text[place + 1]? ≠ some '\n'

namespace Text
variable {text : Text} {start other stop place : Nat}

private theorem BreakAt.exists_endsBreak (stands : text.BreakAt start stop) :
    ∃ place, text.EndsBreak place ∧ stop = place + 1 := by
  cases stands with
  | crlf cr lf => exact ⟨start + 1, .inl lf, rfl⟩
  | lf lf alone => exact ⟨start, .inl lf, rfl⟩
  | cr cr alone => exact ⟨start, .inr ⟨cr, alone⟩, rfl⟩

private theorem EndsBreak.exists_breakAt (ends : text.EndsBreak place) :
    ∃ start, text.BreakAt start (place + 1) := by
  rcases ends with lf | ⟨cr, alone⟩
  · by_cases paired : ∃ before, before + 1 = place ∧ text[before]? = some '\r'
    · obtain ⟨before, rfl, cr⟩ := paired
      exact ⟨before, .crlf cr lf⟩
    · exact ⟨place, .lf lf fun before behind cr => paired ⟨before, behind, cr⟩⟩
  · exact ⟨place, .cr cr alone⟩

/-- No two breaks end at one offset. -/
theorem BreakAt.start_unique (stands : text.BreakAt start stop) (again : text.BreakAt other stop) :
    start = other := by
  cases stands with
  | crlf cr lf =>
    cases again with
    | crlf => rfl
    | lf _ alone => exact absurd cr (alone start rfl)
    | cr found => simp [lf] at found
  | lf lf alone =>
    cases again with
    | crlf cr => exact absurd cr (alone other rfl)
    | lf => rfl
    | cr => rfl
  | cr cr alone =>
    cases again with
    | crlf _ lf => simp [cr] at lf
    | lf => rfl
    | cr => rfl

end Text

namespace Lines
variable {items : List Nat} {source : Text} {base bound number offset found : Nat}

/-- In a row of rising numbers the ones up to a bound come first, as many as are counted. -/
theorem getElem_le_iff (rising : items.Pairwise (· < ·)) (inside : number < items.length) :
    items[number] ≤ bound ↔ number < items.countP (· ≤ bound) := by
  induction items generalizing number with
  | nil => exact absurd inside (Nat.not_lt_zero _)
  | cons first rest ih =>
    obtain ⟨before, later⟩ := List.pairwise_cons.mp rising
    by_cases within : first ≤ bound
    · rw [List.countP_cons_of_pos (by simpa using within)]
      cases number with
      | zero => simpa using within
      | succ number =>
        rw [List.getElem_cons_succ, Nat.add_lt_add_iff_right]
        exact ih later (Nat.lt_of_succ_lt_succ inside)
    · have none : rest.countP (· ≤ bound) = 0 := by
        apply List.countP_eq_zero.mpr
        intro item member
        have past := before item member
        simp only [decide_eq_true_eq]
        omega
      rw [List.countP_cons_of_neg (by simpa using within), none]
      cases number with
      | zero => simpa using within
      | succ number =>
        have past := before _ (List.getElem_mem (Nat.lt_of_succ_lt_succ inside))
        simp only [List.getElem_cons_succ]
        omega

/-- How many of a row of rising numbers come up to a bound, looked for from one place up to another by
halving what is left. -/
def halved (items : List Nat) (bound low high : Nat) : Nat :=
  if low < high then
    let middle := (low + high) / 2
    if (items[middle]?).any (bound < ·) then halved items bound low middle
    else halved items bound (middle + 1) high
  else low
termination_by high - low

/-- The search keeps the count between its two places, and ends where they meet. -/
theorem halved_eq_countP {low high : Nat} (rising : items.Pairwise (· < ·))
    (lower : low ≤ items.countP (· ≤ bound)) (upper : items.countP (· ≤ bound) ≤ high)
    (inside : high ≤ items.length) : halved items bound low high = items.countP (· ≤ bound) := by
  fun_induction halved items bound low high with
  | case1 low high more middle past ih =>
    have within : middle < items.length := by omega
    rw [List.getElem?_eq_getElem within, Option.any_some, decide_eq_true_eq] at past
    have reached : ¬ middle < items.countP (· ≤ bound) := by
      rw [← getElem_le_iff rising within]
      exact Nat.not_le.mpr past
    exact ih lower (Nat.not_lt.mp reached) (by omega)
  | case2 low high more middle upTo ih =>
    have within : middle < items.length := by omega
    rw [List.getElem?_eq_getElem within, Option.any_some, decide_eq_true_eq, Nat.not_lt,
      getElem_le_iff rising within] at upTo
    exact ih upTo upper inside
  | case3 low high met => omega

/-- The breaks that end in a text are the one that ends with its first character, if there is one, and those
that end in the rest. -/
theorem ends_cons {c : Char} {text : Text} :
    (∃ place, Text.EndsBreak (c :: text) place ∧ found = base + place + 1) ↔
      Text.EndsBreak (c :: text) 0 ∧ found = base + 1 ∨
        ∃ place, text.EndsBreak place ∧ found = base + 1 + place + 1 := by
  rw [← Nat.or_exists_add_one]
  refine or_congr Iff.rfl (exists_congr fun place => and_congr Iff.rfl ?_)
  rw [Nat.add_assoc base 1, Nat.add_comm 1 place]

/-- Reading from the head comes upon the last character of every break, and upon nothing else. -/
theorem mem_breaks {text : Text} :
    found ∈ breaks text base ↔ ∃ place, text.EndsBreak place ∧ found = base + place + 1 := by
  fun_induction breaks text base with
  | case1 base => simp [Text.EndsBreak]
  | case2 rest base ih =>
    have within : ¬ Text.EndsBreak ('\r' :: '\n' :: rest) 0 := by simp [Text.EndsBreak]
    have ends : Text.EndsBreak ('\n' :: rest) 0 := .inl rfl
    rw [List.mem_cons, ih, ends_cons, ends_cons]
    simp only [within, ends, false_and, false_or, true_and]
  | case3 c rest base unpaired ends ih =>
    have here : Text.EndsBreak (c :: rest) 0 := by
      rcases ends with rfl | rfl
      · refine .inr ⟨rfl, fun feed => ?_⟩
        obtain ⟨later, rfl⟩ := List.head?_eq_some_iff.mp (List.head?_eq_getElem? ▸ feed)
        exact unpaired later rfl rfl
      · exact .inl rfl
    rw [List.mem_cons, ih, ends_cons]
    simp only [here, true_and]
  | case4 c rest base unpaired goes ih =>
    have here : ¬ Text.EndsBreak (c :: rest) 0 := by
      rintro (feed | ⟨carriage, -⟩)
      · exact goes (.inr (Option.some.inj feed))
      · exact goes (.inl (Option.some.inj carriage))
    rw [ih, ends_cons]
    simp only [here, false_and, false_or]

/-- A line after the first starts where a break ends, and every break is followed by a line. -/
theorem mem_breaks_iff_stands : found ∈ breaks source 0 ↔ ∃ start, source.BreakAt start found := by
  rw [mem_breaks]
  constructor
  · rintro ⟨place, ends, rfl⟩
    rw [Nat.zero_add]
    exact ends.exists_breakAt
  · rintro ⟨start, stands⟩
    obtain ⟨place, ends, rfl⟩ := stands.exists_endsBreak
    exact ⟨place, ends, by rw [Nat.zero_add]⟩

/-- The line of an offset is counted in breaks. -/
theorem encard_breaks (source : Text) (offset : Nat) :
    {place : Nat × Nat | source.BreakAt place.1 place.2 ∧ place.2 ≤ offset}.encard =
      (ofText source).line offset := by
  have counted : (ofText source).line offset = ((breaks source 0).filter (· ≤ offset)).length := by
    rw [← List.countP_eq_length_filter, line, ofText, List.countP_cons_of_pos (by simp), Nat.add_sub_cancel]
  have single : ((breaks source 0).filter (· ≤ offset)).Nodup :=
    ((breaks_sorted source 0).imp Nat.ne_of_lt).filter _
  have apart : Set.InjOn Prod.snd
      {place : Nat × Nat | source.BreakAt place.1 place.2 ∧ place.2 ≤ offset} := by
    rintro ⟨start, stop⟩ ⟨stands, -⟩ ⟨other, _⟩ ⟨again, -⟩ rfl
    exact congrArg (·, stop) (stands.start_unique again)
  have stops : Set.image Prod.snd {place : Nat × Nat | source.BreakAt place.1 place.2 ∧ place.2 ≤ offset} =
      ((breaks source 0).filter (· ≤ offset)).toFinset := by
    ext stop
    simp [mem_breaks_iff_stands]
  rw [← apart.encard_image, stops, Set.encard_coe_eq_coe_finsetCard, List.toFinset_card_of_nodup single,
    counted]

private theorem lineAt_within (within : offset ≤ source.length) :
    (ofText source).lineAt offset = .ok ((ofText source).line offset) :=
  lineAt_eq_ok_iff.mpr ⟨⟨Int.natCast_nonneg _, Int.ofNat_le.mpr within⟩, rfl⟩

/-- Every other offset is refused, and the refusal tells which it is and how long the source. -/
theorem lineAt_refused_iff {offset : Int} :
    (ofText source).lineAt offset = .error (.outsideSource "offset" offset offset source.length) ↔
      offset < 0 ∨ source.length < offset := by
  have length : (ofText source).length = source.length := rfl
  unfold lineAt
  rw [length]
  by_cases fits : 0 ≤ offset ∧ offset ≤ source.length
  · rw [if_pos fits]
    exact iff_of_false nofun (by omega)
  · rw [if_neg fits]
    exact iff_of_true rfl (by omega)

theorem startOf_eq_getElem (inside : number < (ofText source).count) :
    (ofText source).startOf number = .ok (ofText source).starts[number] := by
  rw [startOf_top (Int.natCast_nonneg _), top, Int.toNat_natCast, List.getElem?_eq_getElem inside,
    Option.getD_some]

/-- The first line starts at or before every offset. -/
theorem countP_starts (source : Text) (offset : Nat) :
    (ofText source).starts.countP (· ≤ offset) = (ofText source).line offset + 1 := by
  have first : 0 < (ofText source).starts.countP (· ≤ offset) :=
    List.countP_pos_iff.mpr ⟨0, List.mem_cons_self, by simp⟩
  rw [line]
  omega

private theorem halved_starts (source : Text) (offset : Nat) :
    halved (ofText source).starts offset 0 (ofText source).count = (ofText source).line offset + 1 := by
  rw [count, halved_eq_countP (starts_sorted source) (Nat.zero_le _) List.countP_le_length (Nat.le_refl _),
    countP_starts]

/-- The lines that start at or before an offset are those up to its own. -/
theorem starts_le_iff (inside : number < (ofText source).count) :
    (ofText source).starts[number] ≤ offset ↔ number ≤ (ofText source).line offset := by
  rw [getElem_le_iff (starts_sorted source) inside, countP_starts, Nat.lt_succ_iff]

private theorem line_lt_count (source : Text) (offset : Nat) :
    (ofText source).line offset < (ofText source).count := by
  have counted := countP_starts source offset
  have most : (ofText source).starts.countP (· ≤ offset) ≤ (ofText source).count := List.countP_le_length
  omega

/-- A line's start is on that line. -/
theorem line_start (inside : number < (ofText source).count) :
    (ofText source).line (ofText source).starts[number] = number := by
  apply Nat.le_antisymm
  · by_contra past
    have next : number + 1 < (ofText source).count := by
      have most := line_lt_count source (ofText source).starts[number]
      omega
    have before : (ofText source).starts[number + 1] ≤ (ofText source).starts[number] :=
      (starts_le_iff next).mpr (Nat.not_le.mp past)
    have rising := List.pairwise_iff_getElem.mp (starts_sorted source) number (number + 1) inside next
      (Nat.lt_succ_self number)
    omega
  · exact (starts_le_iff inside).mp (Nat.le_refl _)

/-- What the line of an offset is: as many breaks end at or before the offset, it starts there or before,
and the next line, unless there is none, behind it. -/
structure Holds (source : Text) (line offset : Nat) : Prop where
  counted : {place : Nat × Nat | source.BreakAt place.1 place.2 ∧ place.2 ≤ offset}.encard = line
  inside : line < (ofText source).count
  begins : ∃ start, (ofText source).startOf line = .ok start ∧ start ≤ offset
  ends : line + 1 = (ofText source).count ∨
    ∃ next, (ofText source).startOf (line + 1 : Nat) = .ok next ∧ offset < next

private theorem line_holds (source : Text) (offset : Nat) :
    Holds source ((ofText source).line offset) offset := by
  have inside := line_lt_count source offset
  refine ⟨encard_breaks source offset, inside, ⟨_, startOf_eq_getElem inside, ?_⟩, ?_⟩
  · exact (starts_le_iff inside).mpr (Nat.le_refl _)
  · by_cases more : (ofText source).line offset + 1 < (ofText source).count
    · refine .inr ⟨_, startOf_eq_getElem more, ?_⟩
      exact Nat.not_le.mp fun before => Nat.not_succ_le_self _ ((starts_le_iff more).mp before)
    · exact .inl (by omega)

/-- No line starts between the two characters of one break. -/
theorem startOf_ne_within {number : Int} (cr : source[offset]? = some '\r')
    (lf : source[offset + 1]? = some '\n') : (ofText source).startOf number ≠ .ok (offset + 1) := by
  intro found
  rcases startOf_mem found with member | last
  · rcases List.mem_cons.mp member with first | member
    · cases first
    · obtain ⟨place, ends, same⟩ := mem_breaks.mp member
      have here : place = offset := by omega
      subst here
      rcases ends with feed | ⟨-, alone⟩
      · rw [cr] at feed
        cases feed
      · exact alone lf
  · obtain ⟨within, -⟩ := List.getElem?_eq_some_iff.mp lf
    exact Nat.ne_of_lt within last

/-- The number of a line, for every source and every offset: it is refused exactly outside the source, and
otherwise it is the number of breaks that end at or before the offset, the line starts there or before, and
the next one behind; a search that halves the lines ends right behind it. Lines start one after the other,
each start is on its own line, an offset further on is on no earlier line, and no line starts within a
break. -/
theorem lines_counted_by_breaks (source : Text) :
    let lines := ofText source
    (∀ offset : Int,
      lines.lineAt offset = .error (.outsideSource "offset" offset offset source.length) ↔
        offset < 0 ∨ source.length < offset) ∧
    (∀ offset ≤ source.length, ∃ line, lines.lineAt offset = .ok line ∧ Holds source line offset ∧
      halved lines.starts offset 0 lines.count = line + 1) ∧
    (∀ earlier later : Nat, earlier < later → later < lines.count →
      ∃ start next, lines.startOf earlier = .ok start ∧ lines.startOf later = .ok next ∧ start < next) ∧
    (∀ number < lines.count, ∃ start, lines.startOf number = .ok start ∧ lines.lineAt start = .ok number) ∧
    (∀ (offset further : Int) (line later : Nat), offset ≤ further → lines.lineAt offset = .ok line →
      lines.lineAt further = .ok later → line ≤ later) ∧
    ∀ offset : Nat, source[offset]? = some '\r' → source[offset + 1]? = some '\n' →
      ∀ number : Int, lines.startOf number ≠ .ok (offset + 1) := by
  refine ⟨fun offset => lineAt_refused_iff, ?_, ?_, ?_, ?_, ?_⟩
  · intro offset within
    exact ⟨_, lineAt_within within, line_holds source offset, halved_starts source offset⟩
  · intro earlier later before inside
    refine ⟨_, _, startOf_eq_getElem (Nat.lt_trans before inside), startOf_eq_getElem inside, ?_⟩
    exact List.pairwise_iff_getElem.mp (starts_sorted source) earlier later _ _ before
  · intro number inside
    refine ⟨_, startOf_eq_getElem inside, ?_⟩
    rw [lineAt_within (starts_le _ (List.getElem_mem inside)), line_start inside]
  · intro offset further line later ordered found foundLater
    obtain ⟨-, rfl⟩ := lineAt_eq_ok_iff.mp found
    obtain ⟨-, rfl⟩ := lineAt_eq_ok_iff.mp foundLater
    exact line_mono (Int.toNat_le_toNat ordered)
  · intro offset cr lf number
    exact startOf_ne_within cr lf

/-- A carriage return alone, one with its line feed, a line feed alone and a carriage return at the end. -/
def mixedBreaks : Text := ['a', '\r', '\r', '\n', 'b', '\n', '\r']

/-- The offset within the second break is still on the line that the break ends, and the end of the source
is on an empty last line. -/
theorem mixedBreaks_counted :
    Holds mixedBreaks 1 3 ∧ Holds mixedBreaks 4 7 ∧ (ofText mixedBreaks).count = 5 ∧
    (ofText mixedBreaks).lineAt 8 = .error (.outsideSource "offset" 8 8 7) ∧
    ∀ number : Int, (ofText mixedBreaks).startOf number ≠ .ok 3 := by
  obtain ⟨refused, held, -, -, -, whole⟩ := lines_counted_by_breaks mixedBreaks
  have fourth : (ofText mixedBreaks).lineAt (3 : Nat) = .ok 1 := rfl
  have last : (ofText mixedBreaks).lineAt (7 : Nat) = .ok 4 := rfl
  obtain ⟨line, found, within, -⟩ := held 3 (by decide)
  obtain ⟨final, foundFinal, ends, -⟩ := held 7 (by decide)
  cases fourth.symm.trans found
  cases last.symm.trans foundFinal
  exact ⟨within, ends, rfl, (refused 8).mpr (.inr (by decide)), whole 2 rfl rfl⟩

end Lines
end Emend
