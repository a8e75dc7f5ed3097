import Emend.Proofs.Computation

/-! Two computations side by side, each with a state of its own. They go in lockstep if from related
states they end alike, whichever way that is. A fault is an end like any other, so nothing has to be known
about when the computations fail. -/
namespace Emend
variable {σ τ α β γ δ : Type}

/-- Both ended well with related answers, or both with the same fault, and in related states. -/
inductive Together (answers : α → β → Prop) (states : σ → τ → Prop) :
    EStateM.Result Fault σ α → EStateM.Result Fault τ β → Prop
  | ok {first : α} {second : β} {here : σ} {there : τ} (answered : answers first second)
      (left : states here there) : Together answers states (.ok first here) (.ok second there)
  | error {fault : Fault} {here : σ} {there : τ} (left : states here there) :
      Together answers states (.error fault here) (.error fault there)

/-- From related states the two computations end alike. -/
def Lockstep (answers : α → β → Prop) (states : σ → τ → Prop) (first : EStateM Fault σ α)
    (second : EStateM Fault τ β) : Prop :=
  ∀ here there, states here there → Together answers states (first here) (second there)

namespace Lockstep
variable {answers : α → β → Prop} {results : γ → δ → Prop} {states : σ → τ → Prop}

theorem pure {first : α} {second : β} (answered : answers first second) :
    Lockstep answers states (pure first) (pure second) :=
  fun _ _ related => .ok answered related

theorem throw (fault : Fault) :
    Lockstep answers states (throw fault) (throw fault) :=
  fun _ _ related => .error related

theorem bind {first : EStateM Fault σ α} {second : EStateM Fault τ β} {next : α → EStateM Fault σ γ}
    {following : β → EStateM Fault τ δ} (begun : Lockstep answers states first second)
    (goes : ∀ one other, answers one other → Lockstep results states (next one) (following other)) :
    Lockstep results states (first >>= next) (second >>= following) := by
  intro here there related
  have ended := begun here there related
  simp only [Bind.bind, EStateM.bind]
  generalize first here = one, second there = other at ended
  cases ended with
  | ok answered left => exact goes _ _ answered _ _ left
  | error left => exact .error left

/-- What was checked beforehand is the same on both sides. -/
theorem ofExcept (given : Except Fault α) :
    Lockstep Eq states (ofExcept given) (ofExcept given) := by
  cases given with
  | ok answer => exact pure rfl
  | error fault => exact throw fault

theorem get : Lockstep states states (get : EStateM Fault σ σ) (get : EStateM Fault τ τ) :=
  fun _ _ related => .ok related related

theorem modify {change : σ → σ} {alter : τ → τ}
    (keeps : ∀ here there, states here there → states (change here) (alter there)) :
    Lockstep Eq states (modify change : EStateM Fault σ PUnit) (modify alter : EStateM Fault τ PUnit) :=
  fun _ _ related => .ok rfl (keeps _ _ related)

/-- What the second computation keeps, whatever the first does, may be added to the relation. -/
theorem frame {first : EStateM Fault σ α} {second : EStateM Fault τ β} {relation : τ → τ → Prop}
    {kept : τ → Prop} (goes : Lockstep answers states first second) (keeps : Keeps relation second)
    (still : ∀ {before after}, kept before → relation before after → kept after) :
    Lockstep answers (fun here there => states here there ∧ kept there) first second := by
  rintro here there ⟨related, held⟩
  have ended := goes here there related
  have moved := still held (keeps there)
  generalize first here = one, second there = other at ended moved
  cases ended with
  | ok answered left => exact .ok answered ⟨left, moved⟩
  | error left => exact .error ⟨left, moved⟩

end Lockstep

/-- From related states the two computations end alike, provided that the second leaves a state that is
`good`. -/
def LockstepWhere (good : τ → Prop) (answers : α → β → Prop) (states : σ → τ → Prop)
    (first : EStateM Fault σ α) (second : EStateM Fault τ β) : Prop :=
  ∀ here there, states here there → good (stateOf (second there)) →
    Together answers states (first here) (second there)

section
variable {answers : α → β → Prop} {results : γ → δ → Prop} {states : σ → τ → Prop} {good : τ → Prop}
  {first : EStateM Fault σ α} {second : EStateM Fault τ β} {next : α → EStateM Fault σ γ}
  {following : β → EStateM Fault τ δ}

theorem Lockstep.to_where (goes : Lockstep answers states first second) :
    LockstepWhere good answers states first second :=
  fun here there related _ => goes here there related

/-- What comes last has to end well placed, what comes before it only if later states are good only after
good ones. -/
theorem LockstepWhere.bind {relation : τ → τ → Prop}
    (begun : LockstepWhere good answers states first second)
    (goes : ∀ one other, answers one other → LockstepWhere good results states (next one) (following other))
    (keeps : ∀ other, Keeps relation (following other))
    (still : ∀ {before after}, relation before after → good after → good before) :
    LockstepWhere good results states (first >>= next) (second >>= following) := by
  intro here there related fine
  cases ran : second there with
  | error fault left =>
    rw [bind_of_error ran] at fine ⊢
    have ended := begun here there related (by rw [ran]; exact fine)
    rw [ran] at ended
    simp only [Bind.bind, EStateM.bind]
    generalize first here = one at ended
    cases ended with
    | error left => exact .error left
  | ok answer between =>
    rw [bind_of_ok ran] at fine ⊢
    have ended := begun here there related (by rw [ran]; exact still (keeps answer between) fine)
    rw [ran] at ended
    simp only [Bind.bind, EStateM.bind]
    generalize first here = one at ended
    cases ended with
    | ok answered left => exact goes _ _ answered _ _ left fine

/-- Computations that end alike in any case may come before. -/
theorem Lockstep.bind_where (begun : Lockstep answers states first second)
    (goes : ∀ one other, answers one other → LockstepWhere good results states (next one) (following other)) :
    LockstepWhere good results states (first >>= next) (second >>= following) := by
  intro here there related fine
  have ended := begun here there related
  simp only [Bind.bind, EStateM.bind] at fine ⊢
  generalize first here = one, second there = other at ended fine
  cases ended with
  | ok answered left => exact goes _ _ answered _ _ left fine
  | error left => exact .error left

end
end Emend
