import Mathlib.Data.List.Basic

/-!
# Runs that can fail

What a successful run of steps in `Except` says about each step, and the rule that an
invariant of one step holds after all of them.
-/

namespace Except
universe u v
variable {ε : Type u} {α β σ : Type v}

theorem bind_ok {run : Except ε α} {next : α → Except ε β} {result : β} :
    run >>= next = .ok result ↔ ∃ value, run = .ok value ∧ next value = .ok result := by
  cases run <;> simp [bind, Except.bind]

@[simp] theorem ok_bind (value : α) (next : α → Except ε β) :
    (Except.ok value : Except ε α) >>= next = next value :=
  rfl

@[simp] theorem error_bind (fault : ε) (next : α → Except ε β) :
    (Except.error fault : Except ε α) >>= next = .error fault :=
  rfl

theorem toBool_iff {run : Except ε α} : run.toBool = true ↔ ∃ value, run = .ok value := by
  cases run <;> simp [Except.toBool]

theorem foldlM_cons_ok {step : σ → α → Except ε σ} {item : α} {items : List α} {start final : σ} :
    (item :: items).foldlM step start = .ok final ↔
      ∃ middle, step start item = .ok middle ∧ items.foldlM step middle = .ok final := by
  rw [List.foldlM_cons, bind_ok]

theorem foldlM_append_ok {step : σ → α → Except ε σ} {first second : List α} {start final : σ} :
    (first ++ second).foldlM step start = .ok final ↔
      ∃ middle, first.foldlM step start = .ok middle ∧ second.foldlM step middle = .ok final := by
  rw [List.foldlM_append, bind_ok]

theorem foldlM_concat_ok {step : σ → α → Except ε σ} {items : List α} {last : α} {start final : σ} :
    (items ++ [last]).foldlM step start = .ok final ↔
      ∃ middle, items.foldlM step start = .ok middle ∧ step middle last = .ok final := by
  rw [foldlM_append_ok]
  simp only [List.foldlM_cons, List.foldlM_nil, bind_pure]

theorem foldlM_flatMap {γ : Type*} {step : σ → α → Except ε σ} (f : γ → List α) (list : List γ)
    (start : σ) :
    (list.flatMap f).foldlM step start =
      list.foldlM (fun state entry => (f entry).foldlM step state) start := by
  induction list generalizing start with
  | nil => rfl
  | cons entry list ih =>
    rw [List.flatMap_cons, List.foldlM_append, List.foldlM_cons]
    exact congrArg (_ >>= ·) (funext ih)

/-- The run rule: what every step preserves holds at the end. -/
theorem foldlM_invariant {step : σ → α → Except ε σ} {items : List α} {start final : σ}
    (P : σ → Prop) (initial : P start)
    (preserve : ∀ s item s', item ∈ items → P s → step s item = .ok s' → P s')
    (run : items.foldlM step start = .ok final) : P final := by
  induction items generalizing start with
  | nil =>
    cases run
    exact initial
  | cons item items ih =>
    obtain ⟨middle, first, rest⟩ := foldlM_cons_ok.mp run
    exact ih (preserve _ _ _ List.mem_cons_self initial first)
      (fun s item s' member => preserve s item s' (List.mem_cons_of_mem _ member)) rest

/-- A fold ends well when an invariant guarantees the next step. -/
theorem foldlM_progress {step : σ → α → Except ε σ} {items : List α} {start : σ} (P : σ → Prop)
    (initial : P start) (step_ok : ∀ s item, item ∈ items → P s →
      ∃ s', step s item = .ok s' ∧ P s') :
    ∃ final, items.foldlM step start = .ok final ∧ P final := by
  induction items generalizing start with
  | nil => exact ⟨start, rfl, initial⟩
  | cons item items ih =>
    obtain ⟨middle, first, holds⟩ := step_ok start item List.mem_cons_self initial
    obtain ⟨final, rest, done⟩ :=
      ih holds (fun s item member => step_ok s item (List.mem_cons_of_mem _ member))
    exact ⟨final, foldlM_cons_ok.mpr ⟨middle, first, rest⟩, done⟩

theorem mapM_cons_ok {f : α → Except ε β} {item : α} {items : List α} {results : List β} :
    (item :: items).mapM f = .ok results ↔
      ∃ first rest, f item = .ok first ∧ items.mapM f = .ok rest ∧ results = first :: rest := by
  rw [List.mapM_cons]
  constructor
  · intro run
    obtain ⟨first, here, run⟩ := bind_ok.mp run
    obtain ⟨rest, later, run⟩ := bind_ok.mp run
    cases run
    exact ⟨first, rest, here, later, rfl⟩
  · rintro ⟨first, rest, here, later, rfl⟩
    rw [here, ok_bind, later]
    rfl

theorem mapM_congr {f g : α → Except ε β} {items : List α}
    (same : ∀ item ∈ items, f item = g item) : items.mapM f = items.mapM g := by
  induction items with
  | nil => rfl
  | cons item items ih =>
    obtain ⟨here, later⟩ := List.forall_mem_cons.mp same
    rw [List.mapM_cons, List.mapM_cons, here, ih later]

theorem length_mapM {f : α → Except ε β} {items : List α} {results : List β}
    (run : items.mapM f = .ok results) :
    results.length = items.length := by
  induction items generalizing results with
  | nil =>
    cases run
    rfl
  | cons item items ih =>
    obtain ⟨first, rest, -, later, rfl⟩ := mapM_cons_ok.mp run
    rw [List.length_cons, List.length_cons, ih later]

theorem exists_mapM {f : α → Except ε β} {items : List α} :
    (∃ results, items.mapM f = .ok results) ↔ ∀ item ∈ items, ∃ result, f item = .ok result := by
  induction items with
  | nil => exact iff_of_true ⟨[], rfl⟩ nofun
  | cons item items ih =>
    rw [List.forall_mem_cons, ← ih]
    constructor
    · intro ⟨results, run⟩
      obtain ⟨first, rest, here, later, -⟩ := mapM_cons_ok.mp run
      exact ⟨⟨first, here⟩, rest, later⟩
    · intro ⟨⟨first, here⟩, rest, later⟩
      exact ⟨first :: rest, mapM_cons_ok.mpr ⟨first, rest, here, later, rfl⟩⟩

theorem exists_mapM_forall₂ {f : α → Except ε β} {R : α → β → Prop} {items : List α}
    (each : ∀ item ∈ items, ∃ result, f item = .ok result ∧ R item result) :
    ∃ results, items.mapM f = .ok results ∧ List.Forall₂ R items results := by
  induction items with
  | nil => exact ⟨[], rfl, .nil⟩
  | cons item items ih =>
    obtain ⟨here, later⟩ := List.forall_mem_cons.mp each
    obtain ⟨first, run, related⟩ := here
    obtain ⟨rest, runs, others⟩ := ih later
    exact ⟨first :: rest, mapM_cons_ok.mpr ⟨first, rest, run, runs, rfl⟩, .cons related others⟩

theorem forall₂_of_mapM {f : α → Except ε β} {items : List α} {results : List β}
    (run : items.mapM f = .ok results) :
    List.Forall₂ (fun item result => f item = .ok result) items results := by
  induction items generalizing results with
  | nil =>
    cases run
    exact .nil
  | cons item items ih =>
    obtain ⟨first, rest, here, later, rfl⟩ := mapM_cons_ok.mp run
    exact .cons here (ih later)

theorem mapM_ok_iff {P : α → Prop} {f : α → Except ε β} {g : α → β}
    (each : ∀ item result, f item = .ok result ↔ P item ∧ result = g item) {items : List α}
    {results : List β} : items.mapM f = .ok results ↔
      (∀ item ∈ items, P item) ∧ results = items.map g := by
  induction items generalizing results with
  | nil =>
    refine ⟨fun run => ?_, fun ⟨_, same⟩ => same ▸ rfl⟩
    cases run
    exact ⟨nofun, rfl⟩
  | cons item items ih =>
    simp only [mapM_cons_ok, each, ih, List.forall_mem_cons, List.map_cons]
    constructor
    · rintro ⟨_, _, ⟨here, rfl⟩, ⟨later, rfl⟩, rfl⟩
      exact ⟨⟨here, later⟩, rfl⟩
    · rintro ⟨⟨here, later⟩, rfl⟩
      exact ⟨_, _, ⟨here, rfl⟩, ⟨later, rfl⟩, rfl⟩

theorem foldlM_ok_iff {P : α → Prop} {step : σ → α → Except ε σ} {next : σ → α → σ}
    (each : ∀ state item after, step state item = .ok after ↔ P item ∧ after = next state item)
    {items : List α} {start final : σ} :
    items.foldlM step start = .ok final ↔
      (∀ item ∈ items, P item) ∧ final = items.foldl next start := by
  induction items generalizing start with
  | nil =>
    refine ⟨fun run => ?_, fun ⟨_, same⟩ => same ▸ rfl⟩
    cases run
    exact ⟨nofun, rfl⟩
  | cons item items ih =>
    simp only [foldlM_cons_ok, each, ih, List.forall_mem_cons, List.foldl_cons]
    constructor
    · rintro ⟨_, ⟨here, rfl⟩, later, same⟩
      exact ⟨⟨here, later⟩, same⟩
    · rintro ⟨⟨here, later⟩, same⟩
      exact ⟨_, ⟨here, rfl⟩, later, same⟩

/-! ### Only one fault -/

/-- The run ends well, or with this fault. -/
def OnlyFails (fault : ε) (run : Except ε α) : Prop := ∀ other, run = .error other → other = fault

theorem onlyFails_ok (fault : ε) (value : α) : OnlyFails fault (.ok value : Except ε α) :=
  fun _ failed => by cases failed

theorem OnlyFails.bind {fault : ε} {run : Except ε α} {next : α → Except ε β}
    (first : OnlyFails fault run)
    (second : ∀ value, run = .ok value → OnlyFails fault (next value)) :
    OnlyFails fault (run >>= next) := by
  cases run with
  | error other =>
    rintro _ ⟨rfl⟩
    exact first other rfl
  | ok value => exact second value rfl

theorem OnlyFails.foldlM {fault : ε} {step : σ → α → Except ε σ} {items : List α} {start : σ}
    (each : ∀ before item after state, items = before ++ item :: after →
      before.foldlM step start = .ok state →
      OnlyFails fault (step state item)) : OnlyFails fault (items.foldlM step start) := by
  induction items generalizing start with
  | nil => exact onlyFails_ok fault start
  | cons item items ih =>
    rw [List.foldlM_cons]
    refine (each [] item items start rfl rfl).bind fun middle first => ih ?_
    rintro before other after state rfl run
    exact each (item :: before) other after state rfl (foldlM_cons_ok.mpr ⟨middle, first, run⟩)

theorem OnlyFails.exists_ok {fault : ε} {run : Except ε α} (only : OnlyFails fault run)
    (avoided : run ≠ .error fault) :
    ∃ value, run = .ok value := by
  cases run with
  | error other => exact absurd (congrArg _ (only other rfl)) avoided
  | ok value => exact ⟨value, rfl⟩

end Except
