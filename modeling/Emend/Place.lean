import Emend.Fault

/-!
Places in a sequence as callers give them: counted from zero at the front, or back from the end when
negative. Where the sequence has no such place, a number that no sequence could have a place for is
refused as such. -/
namespace Emend.Place

def lowest : Int := -9223372036854775808

def highest : Int := 9223372036854775807

/-- The index of a place in a sequence of `length` items; `missing` is the fault of there being none. -/
def index (place : Int) (length : Nat) (missing : Fault) : Except Fault Nat :=
  let found := if place < 0 then place + length else place
  if 0 ≤ found ∧ found < length then .ok found.toNat
  else if place < lowest ∨ highest < place then .error .placeBeyondReach
  else .error missing

def item {α : Type} (items : List α) (place : Int) (missing : Fault) : Except Fault α := do
  match items[← index place items.length missing]? with
  | some found => .ok found
  | none => .error missing

end Emend.Place
