import Mathlib.Data.Nat.Init

/-!
# Loops with an index

A loop runs its body while its index is below its size. `Forward.advances` is the rule for its end:
where an invariant makes every iteration leave the loop or move the index ahead, there are no more
iterations than the size.
-/

namespace Loops

/-- A `while` loop over states of `σ`. The body gives `none` where it breaks out of the loop. -/
structure Loop (ε σ : Type*) where
  size : Nat
  index : σ → Nat
  body : σ → Except ε (Option σ)

variable {ε σ ρ : Type*} {loop : Loop ε σ} {start state : σ} {n : Nat}

/-- `After loop start n state`: the loop is at `state` after `n` iterations. -/
inductive After (loop : Loop ε σ) (start : σ) : Nat → σ → Prop where
  | start : After loop start 0 start
  | next {n : Nat} {state state' : σ} (before : After loop start n state)
    (goesOn : loop.index state < loop.size)
      (run : loop.body state = .ok (some state')) : After loop start (n + 1) state'

/-- No iteration fails, each one leaves the loop or moves the index ahead, and the loop ends within
`size` iterations, the one that leaves it included. -/
structure Advances (loop : Loop ε σ) (start : σ) : Prop where
  iteration : ∀ n state, After loop start n state → loop.index state < loop.size →
    loop.body state = .ok none ∨ ∃ state', loop.body state = .ok (some state') ∧
    loop.index state < loop.index state'
  bound : ∀ n state, After loop start n state →
    n ≤ loop.size ∧ (loop.index state < loop.size → n < loop.size)
  ends : ∃ n last, After loop start n last ∧
    (loop.size ≤ loop.index last ∨ loop.body last = .ok none)

/-- From a state with `holds` an iteration leaves the loop or moves the index ahead, to such a
state. -/
def Forward (loop : Loop ε σ) (holds : σ → Prop) : Prop :=
  ∀ state, holds state → loop.index state < loop.size →
    loop.body state = .ok none ∨
      ∃ state', loop.body state = .ok (some state') ∧
      loop.index state < loop.index state' ∧ holds state'

variable {holds : σ → Prop}

theorem Forward.next {state' : σ} (forward : Forward loop holds) (here : holds state)
    (goesOn : loop.index state < loop.size) (run : loop.body state = .ok (some state')) :
    loop.index state < loop.index state' ∧ holds state' := by
  obtain leaves | ⟨other, same, ahead, there⟩ := forward state here goesOn
  · rw [leaves] at run
    cases run
  · rw [same] at run
    cases run
    exact ⟨ahead, there⟩

theorem Forward.invariant (forward : Forward loop holds) (initial : holds start)
    (after : After loop start n state) :
    holds state := by
  induction after with
  | start => exact initial
  | next _ goesOn run ih => exact (forward.next ih goesOn run).2

theorem Forward.count (forward : Forward loop holds) (initial : holds start)
    (after : After loop start n state) :
    n ≤ loop.index state := by
  induction after with
  | start => exact Nat.zero_le _
  | next before goesOn run ih =>
    have ahead := (forward.next (forward.invariant initial before) goesOn run).1
    omega

/-- The rest of the loop ends, by induction on the distance of the index from the size. -/
theorem Forward.ends (forward : Forward loop holds) (initial : holds start)
    (after : After loop start n state) :
    ∃ n last, After loop start n last ∧
      (loop.size ≤ loop.index last ∨ loop.body last = .ok none) := by
  induction distance : loop.size - loop.index state
    using Nat.strong_induction_on generalizing n state with
  | _ distance ih =>
    by_cases goesOn : loop.index state < loop.size
    · obtain leaves | ⟨state', run, ahead, -⟩ :=
        forward state (forward.invariant initial after) goesOn
      · exact ⟨n, state, after, .inr leaves⟩
      · exact ih _ (by omega) (.next after goesOn run) rfl
    · exact ⟨n, state, after, .inl (by omega)⟩

theorem Forward.advances (forward : Forward loop holds) (initial : holds start) :
    Advances loop start := by
  refine ⟨?_, ?_, forward.ends initial .start⟩
  · intro n state after goesOn
    obtain leaves | ⟨state', run, ahead, -⟩ :=
      forward state (forward.invariant initial after) goesOn
    · exact .inl leaves
    · exact .inr ⟨state', run, ahead⟩
  · intro n state after
    have here := forward.count initial after
    refine ⟨?_, by omega⟩
    cases after with
    | start => exact Nat.zero_le _
    | next before goesOn _ =>
      have earlier := forward.count initial before
      omega

/-- How the loop ends, and that fuel of its size lasts until then. -/
theorem Advances.finish (advances : Advances loop start) :
    ∃ n last, After loop start n last ∧ n ≤ loop.size ∧
      (loop.size ≤ loop.index last ∨
        loop.index last < loop.size ∧ loop.body last = .ok none ∧
        ∃ fuel, loop.size - n = fuel + 1) := by
  obtain ⟨n, last, after, ended⟩ := advances.ends
  obtain ⟨few, fewer⟩ := advances.bound n last after
  refine ⟨n, last, after, few, ?_⟩
  by_cases goesOn : loop.index last < loop.size
  · obtain past | leaves := ended
    · exact absurd past (Nat.not_le.mpr goesOn)
    · have fewer := fewer goesOn
      exact .inr ⟨goesOn, leaves, loop.size - n - 1, by omega⟩
  · exact .inl (Nat.not_lt.mp goesOn)

/-- A function with fuel that runs the body has at the start the result that it has later on, up to
the relation that one iteration keeps. -/
theorem Forward.related (R : ρ → ρ → Prop) (run : Nat → σ → ρ) (forward : Forward loop holds)
    (initial : holds start) (refl : ∀ result, R result result)
    (trans : ∀ first second third, R first second → R second third → R first third)
    (unfolds : ∀ fuel state state', holds state → loop.index state < loop.size →
      loop.body state = .ok (some state') →
      R (run (fuel + 1) state) (run fuel state'))
    (after : After loop start n state) (fuel : Nat) :
    R (run (fuel + n) start) (run fuel state) := by
  induction after generalizing fuel with
  | start => exact refl _
  | @next n state state' before goesOn step ih =>
    have earlier := ih (fuel + 1)
    rw [show fuel + 1 + n = fuel + (n + 1) by omega] at earlier
    exact trans _ _ _ earlier
      (unfolds fuel state state' (forward.invariant initial before) goesOn step)

end Loops
