import IrsMachine.Library.Separation

/-!
# Refinement on separated memories

A run on a memory refines a specification, from an assertion on its own part to another one: it
fails where the specification does, and whatever else is in the memory stays as it is.
-/

namespace Separation
open Except Quantale

class Places (M : Type) (A V : outParam Type) where
  content : M → Part A V

export Places (content)

variable {M A V : Type} [Places M A V] {ε β γ β' γ' : Type} {P P' : Assertion A V}
  {spec : Except ε γ} {run : StateT M (Except ε) β}
  {Q : γ → β → Assertion A V}

def Refines (P : Assertion A V) (spec : Except ε γ) (run : StateT M (Except ε) β)
    (Q : γ → β → Assertion A V) : Prop :=
  ∀ (memory : M) (rest : Assertion A V), (P * rest) (content memory) →
    Lockstep (fun value result => (Q value result.1 * rest) (content result.2)) spec (run memory)

/-- A run that does not fail, whether a specification says anything of it or not. -/
def Runs (P : Assertion A V) (run : StateT M (Except ε) β) (Q : β → Assertion A V) : Prop :=
  Refines P (.ok ()) run fun _ => Q

theorem Refines.weaken (refines : Refines P spec run Q) {Q' : γ → β → Assertion A V}
    (before : P' ≤ P) (after : ∀ value result, Q value result ≤ Q' value result) :
    Refines P' spec run Q' := by
  intro memory rest holds
  refine (refines memory rest (mul_le_mul_left before rest _ holds)).mono fun value result holds =>
    ?_
  exact mul_le_mul_left (after value result.1) rest _ holds

theorem Refines.pre (refines : Refines P spec run Q) (before : P' ≤ P) : Refines P' spec run Q :=
  refines.weaken before fun _ _ => le_rfl

theorem Refines.frame (refines : Refines P spec run Q) (kept : Assertion A V) :
    Refines (P * kept) spec run fun value result => Q value result * kept := by
  intro memory rest holds
  rw [mul_assoc] at holds
  refine (refines memory (kept * rest) holds).mono fun value result holds => ?_
  rwa [mul_assoc]

theorem Refines.bind (refines : Refines P spec run Q) {spec' : γ → Except ε γ'}
    {run' : β → StateT M (Except ε) β'} {R : γ' → β' → Assertion A V}
    (later : ∀ value result, Refines (Q value result) (spec' value) (run' result) R) :
    Refines P (spec >>= spec') (run >>= run') R := by
  intro memory rest holds
  exact (refines memory rest holds).bind fun value result holds =>
    later value result.1 result.2 rest holds

theorem Refines.pure {value : γ} {result : β} (after : P ≤ Q value result) :
    Refines P (.ok value) (Pure.pure result : StateT M (Except ε) β) Q :=
  fun _ rest holds => mul_le_mul_left after rest _ holds

theorem Refines.throw (fault : ε) :
    Refines P (.error fault) (MonadExcept.throw fault : StateT M (Except ε) β) Q := fun _ _ _ => rfl

theorem Refines.map (refines : Refines P spec run Q) {f : γ → γ'} {Q' : γ' → β → Assertion A V}
    (after : ∀ value result, Q value result ≤ Q' (f value) result) :
    Refines P (spec >>= fun value => .ok (f value)) run Q' := by
  have both := refines.bind fun value result => Refines.pure (after value result)
  rwa [bind_pure] at both

/-- Nothing comes after a run that fails. -/
theorem Refines.fails {fault : ε} (refines : Refines P (.error fault : Except ε γ) run Q)
    (next : β → StateT M (Except ε) β') (R : γ' → β' → Assertion A V) :
    Refines P (.error fault) (run >>= next) R := by
  intro memory rest holds
  obtain ⟨fault', same, failed⟩ | ⟨_, _, same, -, -⟩ := (refines memory rest holds).cases
  · cases same
    show Lockstep _ _ (run memory >>= fun pair => next pair.1 pair.2)
    rw [failed]
    exact lockstep_error fault
  · cases same

/-- There is no such part of a memory. -/
theorem Refines.absurd (never : P ≤ ⊥) : Refines P spec run Q := by
  intro memory rest holds
  obtain ⟨first, _, _, _, one, _⟩ := holds
  exact (never first one).elim

/-- Of the cases of an assertion, each one. -/
theorem Refines.cases {ι : Sort*} {P : ι → Assertion A V} (each : ∀ i, Refines (P i) spec run Q) :
    Refines (⨆ i, P i) spec run Q := by
  intro memory rest holds
  rw [Assertion.exists_mul] at holds
  obtain ⟨i, holds⟩ := Assertion.exists_apply.mp holds
  exact each i memory rest holds

/-- A first part of which the specification says nothing. -/
theorem Runs.bind {Q : β → Assertion A V} (runs : Runs P run Q) {spec : Except ε γ'}
    {next : β → StateT M (Except ε) β'} {R : γ' → β' → Assertion A V}
    (later : ∀ result, Refines (Q result) spec (next result) R) : Refines P spec (run >>= next) R :=
  Refines.bind runs fun _ => later

theorem Runs.step {Q : β → Assertion A V} (runs : Runs P run Q) {spec : Except ε γ'}
    {next : β → StateT M (Except ε) β'} {R : γ' → β' → Assertion A V} {kept : Assertion A V}
    (later : ∀ result, Refines (Q result * kept) spec (next result) R) :
    Refines (P * kept) spec (run >>= next) R :=
  Runs.bind (Refines.frame runs kept) later

/-- The memory as a whole, of which the assertion is a part. -/
theorem Refines.get {spec : Except ε γ'} {next : M → StateT M (Except ε) β'}
    {R : γ' → β' → Assertion A V}
    (later : ∀ memory rest, (P * rest) (content memory) → Refines P spec (next memory) R) :
    Refines P spec (MonadState.get >>= next) R :=
  fun memory rest holds => later memory rest holds memory rest holds

/-! ### Steps at one place -/

section
variable [DecidableEq A] {place : A} {value value' : V} {result : β} {spec : Except ε γ'}
  {next : β → StateT M (Except ε) β'}
  {R : γ' → β' → Assertion A V}

theorem bind_ran {memory memory' : M} (ran : run memory = .ok (result, memory')) :
    (run >>= next) memory = next result memory' := by
  show (run memory >>= fun pair => next pair.1 pair.2) = _
  rw [ran, ok_bind]

/-- What is at the place is changed, or only read. -/
theorem Refines.change
    (step : ∀ memory, content memory place = some value →
      ∃ memory', run memory = .ok (result, memory') ∧
      content memory' = Function.update (content memory) place (some value'))
    (later : Refines (Assertion.contains place value' * P) spec (next result) R) :
    Refines (Assertion.contains place value * P) spec (run >>= next) R := by
  intro memory rest holds
  rw [mul_assoc, Assertion.contains_mul] at holds
  obtain ⟨here, holds⟩ := holds
  obtain ⟨memory', ran, changed⟩ := step memory here
  rw [bind_ran ran]
  apply later memory' rest
  rw [mul_assoc, Assertion.contains_mul, changed, Function.update_self, Function.update_idem]
  exact ⟨rfl, holds⟩

/-- A place that was not there is made. -/
theorem Refines.create (place : β → A)
    (step : ∀ memory, ∃ result memory', run memory = .ok (result, memory') ∧
      content memory (place result) = none ∧
      content memory' = Function.update (content memory) (place result) (some value))
    (later : ∀ result, Refines (Assertion.contains (place result) value * P) spec (next result) R) :
    Refines P spec (run >>= next) R := by
  intro memory rest holds
  obtain ⟨result, memory', ran, absent, changed⟩ := step memory
  rw [bind_ran ran]
  apply later result memory' rest
  rw [mul_assoc, Assertion.contains_mul, changed, Function.update_self, Function.update_idem,
    ← absent, Function.update_eq_self]
  exact ⟨rfl, holds⟩

/-- A place is given back. -/
theorem Refines.remove
    (step : ∀ memory, content memory place = some value →
      ∃ memory', run memory = .ok (result, memory') ∧
      content memory' = Function.update (content memory) place none)
    (later : Refines P spec (next result) R) :
    Refines (Assertion.contains place value * P) spec (run >>= next) R := by
  intro memory rest holds
  rw [mul_assoc, Assertion.contains_mul] at holds
  obtain ⟨here, holds⟩ := holds
  obtain ⟨memory', ran, changed⟩ := step memory here
  rw [bind_ran ran]
  apply later memory' rest
  rwa [changed]

end

end Separation
