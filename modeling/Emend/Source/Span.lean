import Emend.Fault

/-!
Half-open ranges of offsets. A `Span` carries the proof that it does not end before it starts; `Span.of`
is the checked way in from arbitrary integers, and `Span.reach` the total one for ranges that are
computed from offsets already known to lie in the text. -/
namespace Emend

/-- The range `[start, stop)` of a source text. -/
structure Span where
  start : Nat
  stop : Nat
  ordered : start ≤ stop := by omega
deriving DecidableEq, Repr

namespace Span

/-- The span with these ends, unless they are out of order or before the text. -/
def of (start stop : Int) : Except Fault Span :=
  if h : 0 ≤ start ∧ start ≤ stop then .ok ⟨start.toNat, stop.toNat, by omega⟩
  else .error (.malformedSpan start stop)

/-- A span is built exactly from ends that are in order and not before the text, and has those ends. -/
theorem of_eq_ok_iff {start stop : Int} {span : Span} :
    of start stop = .ok span ↔ (span.start : Int) = start ∧ (span.stop : Int) = stop := by
  have ordered := span.ordered
  unfold of
  split
  · rename_i fits
    constructor
    · intro built
      cases built
      constructor <;> simp <;> omega
    · rintro ⟨rfl, rfl⟩
      rfl
  · rename_i unfit
    constructor
    · intro built
      cases built
    · rintro ⟨rfl, rfl⟩
      exact absurd ⟨Int.natCast_nonneg _, Int.ofNat_le.mpr ordered⟩ unfit

/-- The span from `start` to `stop`, empty at `start` when `stop` comes before it. -/
def reach (start stop : Nat) : Span :=
  ⟨start, max start stop, Nat.le_max_left ..⟩

/-- Ends that are in order make the span that reaches from one to the other. -/
theorem of_reach {start stop : Nat} (ordered : start ≤ stop) : of start stop = .ok (reach start stop) :=
  of_eq_ok_iff.mpr ⟨rfl, congrArg Int.ofNat (Nat.max_eq_right ordered)⟩

/-- The empty span at an offset. -/
def point (offset : Nat) : Span :=
  ⟨offset, offset, Nat.le_refl _⟩

def length (span : Span) : Nat :=
  span.stop - span.start

def isEmpty (span : Span) : Bool :=
  span.start == span.stop

def contains (span : Span) (offset : Int) : Bool :=
  (span.start : Int) ≤ offset && offset < span.stop

/-- The smallest span that covers both. -/
def hull (span other : Span) : Span :=
  ⟨min span.start other.start, max span.stop other.stop, by
    have := span.ordered
    omega⟩

/-- A fault unless the span ends within a source of the given length. -/
def requireWithin (span : Span) (length : Int) : Except Fault Unit :=
  if (span.stop : Int) ≤ length then .ok ()
  else .error (.outsideSource "span" span.start span.stop length)

def render (span : Span) : String :=
  s!"[{span.start}, {span.stop})"

def text (span : Span) (source : Text) : Text :=
  source.slice span.start span.stop

end Span
end Emend
