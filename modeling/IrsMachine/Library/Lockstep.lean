import IrsMachine.Library.Except

/-!
# Runs in lockstep

Two runs that end in related values, or with the same fault. A machine may also take a silent step
between its events: where this keeps it related to one that does not, both give the same outputs.
-/

namespace Except
universe u v
variable {ε : Type u} {α β γ δ σ τ : Type v}

def Lockstep (R : α → β → Prop) : Except ε α → Except ε β → Prop
  | .ok first, .ok second => R first second
  | .error fault, .error fault' => fault = fault'
  | _, _ => False

variable {R : α → β → Prop} {S : γ → δ → Prop}

theorem lockstep_error (fault : ε) : Lockstep R (.error fault) (.error fault) := rfl

theorem Lockstep.cases {first : Except ε α} {second : Except ε β}
    (lockstep : Lockstep R first second) :
    (∃ fault, first = .error fault ∧ second = .error fault) ∨ ∃ value value', first = .ok value ∧
      second = .ok value' ∧ R value value' := by
  cases first with
  | error fault =>
    cases second with
    | error fault' => exact .inl ⟨fault, rfl, congrArg _ (Eq.symm lockstep)⟩
    | ok value' => exact lockstep.elim
  | ok value =>
    cases second with
    | error fault' => exact lockstep.elim
    | ok value' => exact .inr ⟨value, value', rfl, rfl, lockstep⟩

theorem Lockstep.bind {first : Except ε α} {second : Except ε β} {next : α → Except ε γ}
    {next' : β → Except ε δ} (lockstep : Lockstep R first second)
    (later : ∀ value value', R value value' → Lockstep S (next value) (next' value')) :
    Lockstep S (first >>= next) (second >>= next') := by
  obtain ⟨fault, rfl, rfl⟩ | ⟨value, value', rfl, rfl, related⟩ := lockstep.cases
  · exact lockstep_error fault
  · exact later value value' related

/-- The same first part. -/
theorem Lockstep.bind_same {first : Except ε α} {next : α → Except ε γ} {next' : α → Except ε δ}
    (later : ∀ value, first = .ok value → Lockstep S (next value) (next' value)) :
    Lockstep S (first >>= next) (first >>= next') := by
  cases first with
  | error fault => exact lockstep_error fault
  | ok value => exact later value rfl

theorem Lockstep.foldlM {R : σ → τ → Prop} {step : σ → α → Except ε σ} {step' : τ → α → Except ε τ}
    {items : List α} {start : σ} {start' : τ} (related : R start start')
    (each : ∀ state state', ∀ item ∈ items, R state state' →
      Lockstep R (step state item) (step' state' item)) :
    Lockstep R (items.foldlM step start) (items.foldlM step' start') := by
  induction items generalizing start start' with
  | nil => exact related
  | cons item items ih =>
    rw [List.foldlM_cons, List.foldlM_cons]
    refine (each start start' item List.mem_cons_self related).bind fun middle middle' related =>
      ih related ?_
    exact fun state state' item member => each state state' item (List.mem_cons_of_mem _ member)

theorem Lockstep.mono {R' : α → β → Prop} {first : Except ε α} {second : Except ε β}
    (lockstep : Lockstep R first second)
    (weaker : ∀ value value', R value value' → R' value value') : Lockstep R' first second := by
  obtain ⟨fault, rfl, rfl⟩ | ⟨value, value', rfl, rfl, related⟩ := lockstep.cases
  · exact lockstep_error fault
  · exact weaker value value' related

/-! ### Silent steps -/

section
variable {event output state : Type v} {step : state → event → Except ε (output × state)}
  {silent : state → Except ε state}

/-- The outputs of a run, and the state at its end. Where there is no event, the machine takes its
silent step. -/
def interrupted (step : state → event → Except ε (output × state))
    (silent : state → Except ε state) :
    state → List (Option event) → Except ε (List output × state)
  | current, [] => .ok ([], current)
  | current, none :: events => do
    let current ← silent current
    interrupted step silent current events
  | current, some event :: events => do
    let (output, current) ← step current event
    let (outputs, last) ← interrupted step silent current events
    .ok (output :: outputs, last)

/-- The silent steps cannot be told from the outputs, and the states at the end are related. -/
theorem interrupted_lockstep {R : state → state → Prop} {events : List (Option event)}
    {first second : state} (related : R first second)
    (stepped : ∀ event, some event ∈ events → ∀ first second, R first second →
      Lockstep (fun value value' => value.1 = value'.1 ∧ R value.2 value'.2) (step first event)
        (step second event)) (kept : ∀ first second, R first second →
        ∃ later, silent first = .ok later ∧ R later second) :
    Lockstep (fun value value' => value.1 = value'.1 ∧ R value.2 value'.2)
      (interrupted step silent first events)
      (interrupted step silent second (events.filter Option.isSome)) := by
  induction events generalizing first second with
  | nil => exact ⟨rfl, related⟩
  | cons event events ih =>
    have later := fun first second (related : R first second) =>
      ih related fun event member => stepped event (List.mem_cons_of_mem _ member)
    cases event with
    | none =>
      obtain ⟨restarted, run, related⟩ := kept first second related
      rw [interrupted, run, ok_bind]
      exact later restarted second related
    | some event =>
      rw [List.filter_cons_of_pos rfl, interrupted, interrupted]
      refine (stepped event List.mem_cons_self first second related).bind fun value value' both =>
        ?_
      obtain ⟨same, related⟩ := both
      refine (later value.2 value'.2 related).bind fun rest rest' both => ?_
      obtain ⟨outputs, related⟩ := both
      exact ⟨by rw [same, outputs], related⟩

end

theorem Lockstep.eq {first second : Except ε α} (lockstep : Lockstep Eq first second) :
    first = second := by
  obtain ⟨fault, rfl, rfl⟩ | ⟨value, value', rfl, rfl, same⟩ := lockstep.cases
  · rfl
  · rw [same]

end Except
