import Emend.Fault

/-! Taking apart a computation that may fail and that keeps what it did before it failed. A run that
ends well splits into a run of its first part and one of the rest, both of which end well. -/
namespace Emend
variable {σ α β : Type} {state after : σ} {answer : β}

/-- The state that a computation leaves, however it ended. -/
def stateOf : EStateM.Result Fault σ α → σ
  | .ok _ state => state
  | .error _ state => state

theorem bind_of_ok {first : EStateM Fault σ α} {next : α → EStateM Fault σ β} {middle : α}
    {between : σ} (begun : first state = .ok middle between) :
    (first >>= next) state = next middle between := by
  simp only [bind, EStateM.bind, begun]

theorem bind_of_error {first : EStateM Fault σ α} {next : α → EStateM Fault σ β} {fault : Fault}
    {left : σ} (failed : first state = .error fault left) :
    (first >>= next) state = .error fault left := by
  simp only [bind, EStateM.bind, failed]

theorem get_run (state : σ) : (get : EStateM Fault σ σ) state = .ok state state :=
  rfl

theorem modify_run (change : σ → σ) (state : σ) :
    (modify change : EStateM Fault σ PUnit) state = .ok ⟨⟩ (change state) :=
  rfl

theorem throw_run (fault : Fault) (state : σ) :
    (throw fault : EStateM Fault σ α) state = .error fault state :=
  rfl

theorem bind_eq_ok {first : EStateM Fault σ α} {next : α → EStateM Fault σ β} :
    (first >>= next) state = .ok answer after ↔
      ∃ middle between, first state = .ok middle between ∧ next middle between = .ok answer after := by
  constructor
  · intro ran
    cases begun : first state with
    | ok middle between =>
      rw [bind_of_ok begun] at ran
      exact ⟨middle, between, rfl, ran⟩
    | error fault between =>
      rw [bind_of_error begun] at ran
      cases ran
  · rintro ⟨middle, between, begun, ran⟩
    rw [bind_of_ok begun]
    exact ran

theorem pure_eq_ok {given : β} :
    (pure given : EStateM Fault σ β) state = .ok answer after ↔ given = answer ∧ state = after := by
  simp only [pure, EStateM.pure, EStateM.Result.ok.injEq]

theorem get_eq_ok {found : σ} :
    (get : EStateM Fault σ σ) state = .ok found after ↔ state = found ∧ state = after := by
  rw [get_run, EStateM.Result.ok.injEq]

theorem modify_eq_ok {change : σ → σ} {nothing : PUnit} :
    (modify change : EStateM Fault σ PUnit) state = .ok nothing after ↔ change state = after := by
  rw [modify_run, EStateM.Result.ok.injEq]
  exact and_iff_right rfl

theorem ofExcept_eq_ok {given : Except Fault β} :
    (ofExcept given : EStateM Fault σ β) state = .ok answer after ↔
      given = .ok answer ∧ state = after := by
  cases given with
  | ok value => simp only [ofExcept, pure_eq_ok, Except.ok.injEq]
  | error fault => simp only [ofExcept, throw_run, reduceCtorEq, false_and]

/-- A computation that was checked beforehand goes on with what the check gave. -/
theorem map_eq_ok {γ : Type} {given : Except Fault α} {change : α → γ} {result : γ} :
    given.map change = .ok result ↔ ∃ value, given = .ok value ∧ change value = result := by
  cases given <;> simp [Except.map]

theorem except_bind_eq_ok {γ : Type} {first : Except Fault α} {next : α → Except Fault γ} {result : γ} :
    (first >>= next) = .ok result ↔ ∃ middle, first = .ok middle ∧ next middle = .ok result := by
  cases first <;> simp [Bind.bind, Except.bind]

/-- Whatever becomes of the computation, it takes a state only to one that is related to it. -/
def Keeps (relation : σ → σ → Prop) (work : EStateM Fault σ α) : Prop :=
  ∀ state, relation state (stateOf (work state))

theorem Keeps.bind {relation : σ → σ → Prop}
    (trans : ∀ {first second third}, relation first second → relation second third →
      relation first third)
    {first : EStateM Fault σ α} {next : α → EStateM Fault σ β} (kept : Keeps relation first)
    (keptNext : ∀ middle, Keeps relation (next middle)) : Keeps relation (first >>= next) := by
  intro state
  have begun := kept state
  cases ran : first state with
  | ok middle between =>
    rw [ran] at begun
    rw [bind_of_ok ran]
    exact trans begun (keptNext middle between)
  | error fault between =>
    rw [ran] at begun
    rw [bind_of_error ran]
    exact begun

/-- What holds of a computation however it ends holds of it when it ends well. -/
theorem Keeps.of_ok {relation : σ → σ → Prop} {work : EStateM Fault σ β} (kept : Keeps relation work)
    (ran : work state = .ok answer after) : relation state after := by
  have reached := kept state
  rw [ran] at reached
  exact reached

theorem Keeps.of_error {relation : σ → σ → Prop} {work : EStateM Fault σ β} {fault : Fault} {left : σ}
    (kept : Keeps relation work) (failed : work state = .error fault left) : relation state left := by
  have reached := kept state
  rw [failed] at reached
  exact reached

/-- A run that ends well leaves what is described, and one that fails leaves what is broken. -/
def Meets (work : EStateM Fault σ α) (state : σ) (described : α → σ → Prop) (broken : Fault → σ → Prop) :
    Prop :=
  match work state with
  | .ok answer after => described answer after
  | .error fault left => broken fault left

namespace Meets
variable {work : EStateM Fault σ α} {described : α → σ → Prop} {broken : Fault → σ → Prop}

theorem of_ok_of_error (ok : ∀ answer after, work state = .ok answer after → described answer after)
    (error : ∀ fault left, work state = .error fault left → broken fault left) :
    Meets work state described broken := by
  unfold Meets
  cases ran : work state with
  | ok answer after => exact ok answer after ran
  | error fault left => exact error fault left ran

theorem of_ok {answer : α} {after : σ} (ran : work state = .ok answer after)
    (holds : described answer after) : Meets work state described broken := by
  unfold Meets
  rw [ran]
  exact holds

theorem of_error {fault : Fault} {left : σ} (failed : work state = .error fault left)
    (breaks : broken fault left) : Meets work state described broken := by
  unfold Meets
  rw [failed]
  exact breaks

/-- What was checked beforehand leaves the state as it is. -/
theorem ofExcept {given : Except Fault α} (ok : ∀ answer, given = .ok answer → described answer state)
    (error : ∀ fault, given = .error fault → broken fault state) :
    Meets (ofExcept given) state described broken := by
  cases given with
  | ok answer => exact ok answer rfl
  | error fault => exact error fault rfl

theorem of_eq {other : EStateM Fault σ α} {start : σ} (same : work state = other start)
    (meets : Meets other start described broken) : Meets work state described broken := by
  unfold Meets at meets ⊢
  rw [same]
  exact meets

theorem bind {next : α → EStateM Fault σ β} {goal : β → σ → Prop}
    (begun : Meets work state described broken)
    (goes : ∀ answer between, described answer between → Meets (next answer) between goal broken) :
    Meets (work >>= next) state goal broken := by
  unfold Meets at begun
  cases ran : work state with
  | ok answer between =>
    rw [ran] at begun
    exact of_eq (bind_of_ok ran) (goes answer between begun)
  | error fault left =>
    rw [ran] at begun
    unfold Meets
    rw [bind_of_error ran]
    exact begun

theorem mono {goal : α → σ → Prop} {worse : Fault → σ → Prop} (meets : Meets work state described broken)
    (implies : ∀ answer after, described answer after → goal answer after)
    (excuses : ∀ fault left, broken fault left → worse fault left) : Meets work state goal worse := by
  unfold Meets at meets ⊢
  cases ran : work state with
  | ok answer after =>
    rw [ran] at meets
    exact implies answer after meets
  | error fault left =>
    rw [ran] at meets
    exact excuses fault left meets

theorem described_of_ok {answer : α} {after : σ} (meets : Meets work state described broken)
    (ran : work state = .ok answer after) : described answer after := by
  unfold Meets at meets
  rw [ran] at meets
  exact meets

theorem broken_of_error {fault : Fault} {left : σ} (meets : Meets work state described broken)
    (failed : work state = .error fault left) : broken fault left := by
  unfold Meets at meets
  rw [failed] at meets
  exact meets

/-- The best description of what a run leaves is the run itself. -/
theorem tells_run (meets : Meets work state described broken) :
    Meets work state (fun answer after => work state = .ok answer after) broken :=
  of_ok_of_error (fun _ _ same => same) fun _ _ failed => meets.broken_of_error failed

end Meets
end Emend
