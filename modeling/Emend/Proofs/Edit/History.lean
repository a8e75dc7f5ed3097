import Mathlib
import Emend.Proofs.Edit.Accounting

/-! What a writer goes through while a script runs: every operation, carried out or refused, and every
block under a tighter bound, however deep and however it was left. At each moment the copied source is a
row of slices that end before `reached`; `reached` never goes back; inside a block nothing at or past its
end is touched; and a block that is left takes its bound back, whether it failed or not. -/
namespace Emend
variable {World : Type}

/-- A block of operations under a bound that was left again: the writer before it, the writers inside it
in order (first the one that it was entered with), and the writer once it was left. -/
structure BoundedBlock where
  before : Writer
  stop : Nat
  inside : List Writer
  after : Writer
  finished : Bool

inductive Moment where
  /-- After an operation, or after one that was refused. -/
  | acted (writer : Writer)
  /-- When a block has been entered. -/
  | entered (writer : Writer)
  /-- When a block has been left. -/
  | left (block : BoundedBlock)

def Moment.writer : Moment → Writer
  | acted writer | entered writer => writer
  | left block => block.after

namespace Script

/-- Goes on from where a computation ended well. -/
def goOn (result : EStateM.Result Fault (Desk World) Unit) (rest : Desk World → List Moment) :
    List Moment :=
  match result with
  | .ok () desk => rest desk
  | .error _ _ => []

private theorem goOn_nothing (result : EStateM.Result Fault (Desk World) Unit) :
    goOn result (fun _ => []) = [] := by
  cases result <;> rfl

/-- All that the writer goes through in a run of the script, in order. -/
def history : Script World → Desk World → List Moment
  | done, _ | fail _, _ => []
  | look next, desk => (next desk.writer desk.world).history desk
  | tell change next, desk => next.history { desk with world := change desk.world }
  | act operation next, desk =>
    let acted := onWriter (Writer.perform operation) desk
    .acted (stateOf acted).writer :: goOn acted next.history
  | bounded stop body next, desk =>
    match desk.writer.enter stop with
    | .error _ => [.acted desk.writer]
    | .ok inner =>
      let inside := body.history { desk with writer := inner }
      let result := (bounded stop body done).run desk
      let block : BoundedBlock := {
        before := desk.writer
        stop := stop.toNat
        inside := inner :: inside.map Moment.writer
        after := (stateOf result).writer
        finished := result matches .ok .. }
      .entered inner :: inside ++ .left block :: goOn result next.history
  | rescue body recover next, desk =>
    body.history desk ++
      match body.run desk with
      | .ok () after => next.history after
      | .error fault after =>
        (recover fault).history after ++ goOn ((recover fault).run after) next.history

end Script

namespace Writer
variable {before between after inner : Writer} {stop : Int}

/-- The later writer has the output of the earlier one and more: it is further on, and what it copied
meanwhile lies between the two. -/
structure Follows (before after : Writer) : Prop where
  source : after.source = before.source
  forward : before.reached ≤ after.reached
  added : ∃ added, after.parts = before.parts ++ added ∧
    Ascending before.reached after.reached added

/-- The writer has come here under a bound that is no wider than before. -/
structure Leads (before after : Writer) : Prop extends Follows before after where
  narrowed : after.limit ≤ before.limit
  limited : after.reached ≤ max before.reached before.limit
  inside : after.reached ≤ max before.reached before.source.length

theorem Follows.refl (writer : Writer) : writer.Follows writer :=
  ⟨rfl, Nat.le_refl _, [], by simp, trivial⟩

theorem Follows.trans (first : before.Follows between) (second : between.Follows after) :
    before.Follows after := by
  obtain ⟨earlier, earlierParts, earlierRuns⟩ := first.added
  obtain ⟨later, laterParts, laterRuns⟩ := second.added
  refine ⟨second.source.trans first.source, Nat.le_trans first.forward second.forward,
    earlier ++ later, ?_, earlierRuns.append laterRuns first.forward second.forward⟩
  rw [laterParts, earlierParts, List.append_assoc]

theorem Leads.trans (first : before.Leads between) (second : between.Leads after) :
    before.Leads after := by
  have limited := second.limited
  have inside := second.inside
  have narrowed := first.narrowed
  rw [first.source] at inside
  refine ⟨first.toFollows.trans second.toFollows, Nat.le_trans second.narrowed narrowed, ?_, ?_⟩
  · have := first.limited
    omega
  · have := first.inside
    omega

theorem Advances.leads (advanced : before.Advances after) : before.Leads after := by
  have sameLimit : after.limit = before.limit := by
    simp only [limit, advanced.bound, advanced.source]
  exact ⟨⟨advanced.source, advanced.forward, advanced.added⟩, Nat.le_of_eq sameLimit, advanced.limited,
    advanced.inside⟩

/-- Entering a block changes nothing but the bound, and does not widen it. -/
theorem enter_leads (entered : before.enter stop = .ok inner) : before.Leads inner := by
  obtain ⟨target, rfl, inSource, inBound, rfl⟩ := enter_eq_ok.mp entered
  exact ⟨⟨rfl, Nat.le_refl _, [], by simp, trivial⟩, inBound, Nat.le_max_left .., Nat.le_max_left ..⟩

end Writer

/-- What a block may and may not do. Inside it no limit is past its end, and nothing at or past its end is
copied or dropped. Once it is left the bound is the former one, and if it was left normally nothing before
its end is left over. -/
structure BoundedBlock.Kept (block : BoundedBlock) : Prop where
  narrowed : block.stop ≤ block.before.limit
  limits : ∀ writer ∈ block.inside, writer.limit ≤ block.stop
  reaches : ∀ writer ∈ block.inside, writer.reached ≤ max block.before.reached block.stop
  copies : ∀ writer ∈ block.inside, ∃ added, writer.parts = block.before.parts ++ added ∧
    Ascending block.before.reached block.stop added
  bound : block.after.bound = block.before.bound
  limit : block.after.limit = block.before.limit
  reached : block.after.reached ≤ max block.before.reached block.stop
  finished : block.finished = true → block.stop ≤ block.after.reached

/-- The moments between two writers: they go forward from the one to the other, none of them under a
wider bound, and every block among them is kept. -/
structure Chronicle (before : Writer) (moments : List Moment) (after : Writer) : Prop where
  leads : ∀ moment ∈ moments, before.Leads moment.writer
  ordered : (moments.map Moment.writer).Pairwise Writer.Follows
  ends : ∀ moment ∈ moments, moment.writer.Follows after
  blocks : ∀ block, .left block ∈ moments → block.Kept
  last : (moments.getLast?.map Moment.writer).getD before = after

namespace Chronicle
variable {before between after : Writer} {moments others : List Moment}

theorem nil (writer : Writer) : Chronicle writer [] writer :=
  ⟨by simp, .nil, by simp, by simp, rfl⟩

/-- One moment that is not the end of a block. -/
private theorem single {moment : Moment} (leads : before.Leads moment.writer)
    (plain : ∀ block, moment ≠ .left block) : Chronicle before [moment] moment.writer := by
  refine ⟨?_, by simp, ?_, ?_, rfl⟩
  · intro other member
    cases List.mem_singleton.mp member
    exact leads
  · intro other member
    cases List.mem_singleton.mp member
    exact .refl moment.writer
  · intro block member
    exact absurd (List.mem_singleton.mp member).symm (plain block)

private theorem single_acted (leads : before.Leads after) : Chronicle before [.acted after] after :=
  single leads fun _ => by simp

private theorem single_entered (leads : before.Leads after) : Chronicle before [.entered after] after :=
  single leads fun _ => by simp

theorem append (first : Chronicle before moments between) (second : Chronicle between others after)
    (leads : before.Leads between) (follows : between.Follows after) :
    Chronicle before (moments ++ others) after := by
  refine ⟨?_, ?_, ?_, ?_, ?_⟩
  · intro moment member
    rcases List.mem_append.mp member with member | member
    · exact first.leads moment member
    · exact leads.trans (second.leads moment member)
  · rw [List.map_append, List.pairwise_append]
    refine ⟨first.ordered, second.ordered, ?_⟩
    intro earlier member later memberLater
    obtain ⟨moment, inside, rfl⟩ := List.mem_map.mp member
    obtain ⟨next, insideLater, rfl⟩ := List.mem_map.mp memberLater
    exact (first.ends moment inside).trans (second.leads next insideLater).toFollows
  · intro moment member
    rcases List.mem_append.mp member with member | member
    · exact (first.ends moment member).trans follows
    · exact second.ends moment member
  · intro block member
    rcases List.mem_append.mp member with member | member
    · exact first.blocks block member
    · exact second.blocks block member
  · rw [← second.last, ← first.last, List.getLast?_append]
    cases others.getLast? <;> simp

/-- Leaving a block gives back a bound that the block had only narrowed, so the writer is compared with
the one before the block and not with the last one inside. -/
theorem append_left {block : BoundedBlock} (within : Chronicle before moments between)
    (leads : before.Leads block.after) (follows : between.Follows block.after) (kept : block.Kept) :
    Chronicle before (moments ++ [.left block]) block.after := by
  refine ⟨?_, ?_, ?_, ?_, by simp [Moment.writer]⟩
  · intro moment member
    rcases List.mem_append.mp member with member | member
    · exact within.leads moment member
    · cases List.mem_singleton.mp member
      exact leads
  · rw [List.map_append, List.pairwise_append]
    refine ⟨within.ordered, by simp, ?_⟩
    intro earlier member later memberLater
    obtain ⟨moment, inside, rfl⟩ := List.mem_map.mp member
    cases List.mem_singleton.mp memberLater
    exact (within.ends moment inside).trans follows
  · intro moment member
    rcases List.mem_append.mp member with member | member
    · exact (within.ends moment member).trans follows
    · cases List.mem_singleton.mp member
      exact .refl _
  · intro other member
    rcases List.mem_append.mp member with member | member
    · exact within.blocks other member
    · cases List.mem_singleton.mp member
      exact kept

end Chronicle

namespace Script
variable {desk : Desk World} {moments : List Moment}

/-- A script goes on from the end of its first part, and so does its history. -/
private theorem chronicle_goOn {first : EStateM Fault (Desk World) Unit} {next : Script World}
    (begun : Chronicle desk.writer moments (stateOf (first desk)).writer)
    (leads : desk.writer.Leads (stateOf (first desk)).writer)
    (goesOn : ∀ after, Chronicle after.writer (next.history after) (stateOf (next.run after)).writer) :
    Chronicle desk.writer (moments ++ goOn (first desk) next.history)
      (stateOf ((first >>= fun _ => next.run) desk)).writer := by
  cases ran : first desk with
  | ok nothing after =>
    rw [ran] at begun leads
    rw [bind_of_ok ran]
    have follows : after.writer.Follows (stateOf (next.run after)).writer :=
      (next.run_keeps after).leads.toFollows
    exact begun.append (goesOn after) leads follows
  | error fault after =>
    rw [ran] at begun
    rw [bind_of_error ran]
    simpa only [goOn, List.append_nil] using begun

private theorem bounded_run (stop : Int) (body next : Script World) :
    (bounded stop body next).run = (bounded stop body done).run >>= fun _ => next.run := by
  funext desk
  simp only [run, bind, EStateM.bind]
  cases desk.writer.enter stop with
  | error fault => rfl
  | ok inner =>
    dsimp only
    cases body.run { desk with writer := inner } with
    | error fault left => rfl
    | ok nothing left =>
      dsimp only
      cases onWriter (Writer.perform (.dropTo stop))
        { left with writer := { left.writer with bound := desk.writer.bound } } <;> rfl

private theorem bounded_history (stop : Int) (body next : Script World) (desk : Desk World) :
    (bounded stop body next).history desk = (bounded stop body done).history desk ++
      goOn ((bounded stop body done).run desk) next.history := by
  cases entered : desk.writer.enter stop with
  | error fault => simp [history, run, entered, goOn]
  | ok inner => simp [history, entered, goOn_nothing]

/-- When the body fails, what recovers from it takes its place. -/
theorem rescue_run {body next : Script World} {recover : Fault → Script World} {fault : Fault}
    {after : Desk World} (failed : body.run desk = .error fault after) :
    (rescue body recover next).run desk = ((recover fault).run >>= fun _ => next.run) after := by
  simp only [run, failed, bind, EStateM.bind]
  cases (recover fault).run after <;> rfl

/-- A block that was entered is left with the writer that its body left and the former bound, moved to
the end of the block at the furthest; if it was left normally, at least to there. -/
private theorem bounded_leaves {stop : Int} {inner : Writer} (body : Script World)
    (entered : desk.writer.enter stop = .ok inner) :
    let left := (stateOf (body.run { desk with writer := inner })).writer
    let result := (bounded stop body done).run desk
    { left with bound := desk.writer.bound }.Advances (stateOf result).writer ∧
      (stateOf result).writer.reached ≤ max left.reached stop.toNat ∧
      ((result matches .ok ..) = true → stop.toNat ≤ (stateOf result).writer.reached) := by
  intro left result
  simp only [left, result, run, entered]
  cases ran : body.run { desk with writer := inner } with
  | error fault left =>
    exact ⟨.refl _, Nat.le_max_left .., by simp⟩
  | ok nothing left =>
    simp only [onWriter, Writer.perform, Writer.perform.step]
    cases fell : { left.writer with bound := desk.writer.bound }.dropTo stop with
    | error fault => exact ⟨.refl _, Nat.le_max_left .., by simp⟩
    | ok dropped =>
      obtain ⟨target, rfl, -⟩ := Writer.enter_eq_ok.mp entered
      refine ⟨Writer.dropTo_advances fell, ?_, fun _ => ?_⟩ <;>
        (obtain rfl := Writer.dropTo_eq_ok fell; simp [pure, EStateM.pure, stateOf])

/-- Whatever leads on from the writer inside a block keeps to the block. -/
private theorem leads_in_block {stop : Int} {before inner writer : Writer}
    (entered : before.enter stop = .ok inner) (leads : inner.Leads writer) :
    writer.limit ≤ stop.toNat ∧ writer.reached ≤ max before.reached stop.toNat ∧
      ∃ added, writer.parts = before.parts ++ added ∧
        Ascending before.reached stop.toNat added := by
  obtain ⟨target, rfl, -, -, rfl⟩ := Writer.enter_eq_ok.mp entered
  have narrowed := leads.narrowed
  have limited := leads.limited
  obtain ⟨added, parts, ascending⟩ := leads.added
  simp only [Writer.limit, Option.getD_some] at narrowed limited
  simp only [Int.toNat_natCast]
  exact ⟨narrowed, limited, added, parts, ascending.of_le_max limited (Nat.le_refl _)⟩

/-- The history of a block: entered, its body under the tighter bound, left. -/
private theorem chronicle_bounded {stop : Int} {body : Script World}
    (kept : ∀ desk : Desk World,
      Chronicle desk.writer (body.history desk) (stateOf (body.run desk)).writer) (desk : Desk World) :
    Chronicle desk.writer ((bounded stop body done).history desk)
      (stateOf ((bounded stop body done).run desk)).writer := by
  have advanced := (bounded stop body done).run_keeps desk
  cases entered : desk.writer.enter stop with
  | error fault =>
    simp only [history, run, entered, stateOf]
    exact .single_acted (Writer.Advances.refl desk.writer).leads
  | ok inner =>
    obtain ⟨drops, reached, finished⟩ := bounded_leaves body entered
    have inside := kept { desk with writer := inner }
    have moved := body.run_keeps { desk with writer := inner }
    have enters := Writer.enter_leads entered
    have within : Chronicle desk.writer ([.entered inner] ++ body.history { desk with writer := inner })
        (stateOf (body.run { desk with writer := inner })).writer :=
      (Chronicle.single_entered enters).append inside enters moved.leads.toFollows
    simp only [history, entered]
    rw [goOn_nothing]
    have follows : (stateOf (body.run { desk with writer := inner })).writer.Follows
        (stateOf ((bounded stop body done).run desk)).writer :=
      ⟨drops.source, drops.forward, drops.added⟩
    refine within.append_left advanced.leads follows ?_
    -- All writers of the block, the first one included, are led to from the writer that it was entered
    -- with, and that one carries the bound.
    have leads : ∀ writer ∈ inner :: (body.history { desk with writer := inner }).map Moment.writer,
        inner.Leads writer := by
      intro writer member
      rcases List.mem_cons.mp member with rfl | member
      · exact (Writer.Advances.refl writer).leads
      · obtain ⟨moment, happened, rfl⟩ := List.mem_map.mp member
        exact inside.leads moment happened
    refine
      { narrowed := ?_
        limits := fun writer member => (leads_in_block entered (leads writer member)).1
        reaches := fun writer member => (leads_in_block entered (leads writer member)).2.1
        copies := fun writer member => (leads_in_block entered (leads writer member)).2.2
        bound := advanced.bound
        limit := ?_
        reached := ?_
        finished := finished }
    · obtain ⟨target, rfl, -, inBound, -⟩ := Writer.enter_eq_ok.mp entered
      exact inBound
    · simp only [Writer.limit, advanced.bound, advanced.source]
    · have := (leads_in_block entered moved.leads).2.1
      simp only
      omega

/-- The history of a script goes from the writer that it finds to the one that it leaves. -/
theorem history_chronicle (script : Script World) (desk : Desk World) :
    Chronicle desk.writer (script.history desk) (stateOf (script.run desk)).writer := by
  induction script generalizing desk with
  | done => exact .nil desk.writer
  | fail fault => exact .nil desk.writer
  | look next ih => exact ih desk.writer desk.world desk
  | tell change next ih => exact ih { desk with world := change desk.world }
  | act operation next ih =>
    have advanced : desk.writer.Advances
        (stateOf (onWriter (Writer.perform operation) desk)).writer :=
      onWriter_keeps (Writer.perform_keeps operation) desk
    exact chronicle_goOn (.single_acted advanced.leads) advanced.leads ih
  | bounded stop body next bodyKept nextKept =>
    rw [bounded_run, bounded_history]
    have leads := ((bounded stop body done).run_keeps desk).leads
    exact chronicle_goOn (chronicle_bounded bodyKept desk) leads nextKept
  | rescue body recover next bodyKept recoverKept nextKept =>
    have begun := bodyKept desk
    have leads := (body.run_keeps desk).leads
    cases ran : body.run desk with
    | ok nothing after =>
      rw [ran] at begun leads
      simp only [history, run, ran]
      exact begun.append (nextKept after) leads (next.run_keeps after).leads.toFollows
    | error fault after =>
      rw [ran] at begun leads
      rw [rescue_run ran]
      simp only [history, ran]
      have recovered := chronicle_goOn (recoverKept fault after)
        ((recover fault).run_keeps after).leads nextKept
      have moved := (recover fault).run_keeps.bind .trans (fun _ => next.run_keeps) after
      exact begun.append recovered leads moved.leads.toFollows

end Script

/-- The characters of a part, each with the offset that it was copied from. -/
def Part.marked (source : Text) : Part → List (Option Nat × Char)
  | copied span => ((span.text source).zipIdx span.start).map fun (c, offset) => (some offset, c)
  | inserted text => text.map fun c => (none, c)

/-- The output, character by character, each with the offset that it was copied from. -/
def Writer.marked (writer : Writer) : List (Option Nat × Char) :=
  writer.parts.flatMap (·.marked writer.source)

private theorem Part.marked_text (source : Text) (part : Part) :
    (part.marked source).map Prod.snd = part.text source := by
  cases part with
  | copied span => simp [marked, text, Function.comp_def]
  | inserted text => simp [marked, Part.text, Function.comp_def]

/-- A mark on a copied character is the offset at which the source has that character. -/
theorem Part.mem_marked {source : Text} {span : Span} {offset : Nat} {c : Char}
    (member : (some offset, c) ∈ (Part.copied span).marked source) :
    span.start ≤ offset ∧ offset < span.stop ∧ source[offset]? = some c := by
  simp only [marked, List.mem_map, Prod.mk.injEq, Option.some.injEq] at member
  obtain ⟨⟨d, place⟩, inside, rfl, rfl⟩ := member
  obtain ⟨past, found⟩ := List.mk_mem_zipIdx_iff_le_and_getElem?_sub.mp inside
  simp only [Span.text, Text.slice, List.getElem?_take, List.getElem?_drop] at found
  split at found
  · rename_i short
    rw [Nat.add_sub_cancel' past] at found
    exact ⟨past, by omega, found⟩
  · cases found

/-- The offsets that a copied span was taken from, in order. -/
theorem Part.origins_copied (source : Text) (span : Span) :
    ((Part.copied span).marked source).filterMap Prod.fst =
      List.range' span.start (span.text source).length := by
  rw [marked, List.filterMap_map, ← List.zipIdx_map_snd, ← List.filterMap_eq_map]
  rfl

private theorem Part.origins_inserted (source text : Text) :
    ((Part.inserted text).marked source).filterMap Prod.fst = [] := by
  simp [marked]

/-- Slices that follow one another give offsets that go up. -/
theorem Ascending.origins_ascending (source : Text) {low high : Nat} {parts : List Part}
    (ascending : Ascending low high parts) :
    ((parts.flatMap (·.marked source)).filterMap Prod.fst).Pairwise (· < ·) ∧
      ∀ offset c, (some offset, c) ∈ parts.flatMap (·.marked source) →
        low ≤ offset ∧ offset < high ∧ source[offset]? = some c := by
  induction parts generalizing low with
  | nil => simp
  | cons part rest ih =>
    rw [List.flatMap_cons, List.filterMap_append]
    cases part with
    | inserted text =>
      obtain ⟨upwards, marks⟩ := ih ascending
      rw [Part.origins_inserted]
      refine ⟨upwards, fun offset c member => ?_⟩
      rcases List.mem_append.mp member with member | member
      · simp [Part.marked] at member
      · exact marks offset c member
    | copied span =>
      obtain ⟨begins, nonempty, ends, later⟩ := ascending
      obtain ⟨upwards, marks⟩ := ih later
      constructor
      · rw [Part.origins_copied, List.pairwise_append]
        refine ⟨List.pairwise_lt_range' 1, upwards, ?_⟩
        intro earlier member offset memberLater
        have short : (span.text source).length ≤ span.stop - span.start := by
          simp only [Span.text, Text.slice, List.length_take]
          omega
        have before := (List.mem_range'_1.mp member).2
        obtain ⟨⟨mark, c⟩, inside, rfl⟩ := List.mem_filterMap.mp memberLater
        have past := (marks offset c inside).1
        omega
      · intro offset c member
        rcases List.mem_append.mp member with member | member
        · obtain ⟨past, before, found⟩ := Part.mem_marked member
          exact ⟨by omega, by omega, found⟩
        · obtain ⟨past, before, found⟩ := marks offset c member
          exact ⟨by omega, before, found⟩

/-- The output is made of inserted text and of characters of the source from before `reached`, each at
most once and in their order. -/
structure Writer.Anchored (writer : Writer) : Prop where
  within : writer.reached ≤ writer.source.length
  slices : Ascending 0 writer.reached writer.parts
  output : writer.marked.map Prod.snd = writer.output
  increasing : (writer.marked.filterMap Prod.fst).Pairwise (· < ·)
  copied : ∀ offset c, (some offset, c) ∈ writer.marked →
    offset < writer.reached ∧ writer.source[offset]? = some c

private theorem Writer.Leads.anchored {source : Text} {writer : Writer}
    (leads : ({ source } : Writer).Leads writer) : writer.Anchored := by
  obtain ⟨added, parts, ascending⟩ := leads.added
  simp only [List.nil_append] at parts
  rw [← parts] at ascending
  obtain ⟨upwards, marks⟩ := ascending.origins_ascending writer.source
  refine ⟨?_, ascending, ?_, upwards, fun offset c member => (marks offset c member).2⟩
  · rw [leads.source]
    exact Nat.le_trans leads.inside (by simp)
  · simp only [marked, output, List.map_flatMap, Part.marked_text]

/-- Whatever a callback does, at every moment of its history the output is anchored to the source; from
one moment to the next the writer only moves forward and only adds to what it has; each block keeps to
its bound and gives the former one back, whether it was left normally or by a fault; and the last of
these writers is the one that the run leaves, however it ends. -/
theorem Script.history_accounted (source : Text) (world : World) (script : Script World) :
    let desk : Desk World := { writer := { source }, world }
    let history := script.history desk
    let writers := desk.writer :: history.map Moment.writer
    (∀ writer ∈ writers, writer.source = source ∧ writer.Anchored) ∧
    writers.Pairwise Writer.Follows ∧
    (∀ block, .left block ∈ history → block.Kept) ∧
    writers.getLast? = some (stateOf (script.run desk)).writer := by
  intro desk history writers
  have whole : Chronicle desk.writer history (stateOf (script.run desk)).writer :=
    script.history_chronicle desk
  have leads : ∀ writer ∈ writers, desk.writer.Leads writer := by
    intro writer member
    rcases List.mem_cons.mp member with rfl | member
    · exact (Writer.Advances.refl _).leads
    · obtain ⟨moment, happened, rfl⟩ := List.mem_map.mp member
      exact whole.leads moment happened
  refine ⟨?_, ?_, whole.blocks, ?_⟩
  · intro writer member
    exact ⟨(leads writer member).source, (leads writer member).anchored⟩
  · refine List.pairwise_cons.mpr ⟨?_, whole.ordered⟩
    intro writer member
    exact (leads writer (List.mem_cons_of_mem _ member)).toFollows
  · rw [← whole.last, List.getLast?_cons, List.getLast?_map]

/-- Fails inside two blocks, the inner one tighter, is caught outside both and goes on. -/
def brokenOff : Script Unit :=
  .rescue
    (.bounded 5 (.act (.copyTo 2) (.bounded 3 (.act (.insert ['!']) (.once (.copyTo 4))) .done)) .done)
    (fun _ => .done)
    (.once (.copyTo 6))

/-- The refused copy leaves both blocks by a fault, each gives its bound back, and the copy after them
may go to the end of the source again. -/
example :
    (brokenOff.history { writer := { source := ['a', 'b', 'c', 'd', 'e', 'f'] }, world := () }).map
      (fun moment => (moment.writer.bound, moment.writer.reached)) =
    [(some 5, 0), (some 5, 2), (some 3, 2), (some 3, 2), (some 3, 2), (some 5, 2), (none, 2), (none, 6)] := by
  cbv

end Emend
