import Mathlib.Data.List.Infix
import Mathlib.Data.List.Pairwise

/-!
# Runs between delimiters

The maximal runs of a list are its longest nonempty parts without a delimiter. `runs` finds them
from left to right with their places, by splitting at the delimiters (`runs_allRuns`).
-/

namespace Runs
variable {σ : Type*}

/-- There is no delimiter in `run`, and around it there are delimiters or nothing. -/
structure MaximalRun (p : σ → Bool) (l : List σ) (start : Nat) (run : List σ) : Prop where
  goesOn : run ≠ []
  clean : ∀ ch ∈ run, p ch = false
  stands : ∃ before after, l = before ++ (run ++ after) ∧ before.length = start ∧
    (∀ ch ∈ before.getLast?, p ch = true) ∧ ∀ ch ∈ after.head?, p ch = true

structure AllRuns (p : σ → Bool) (l : List σ) (found : List (Nat × List σ)) : Prop where
  ordered : found.Pairwise fun one other => one.1 < other.1
  maximal : ∀ start run, (start, run) ∈ found ↔ MaximalRun p l start run

/-- The pieces of a list with one letter between each two. -/
def placed : Nat → List (List σ) → List (Nat × List σ)
  | _, [] => []
  | start, piece :: pieces => (start, piece) :: placed (start + piece.length + 1) pieces

def runs (p : σ → Bool) (l : List σ) : List (Nat × List σ) :=
  (placed 0 (l.splitOnP p)).filter fun piece => decide (piece.2 ≠ [])

def shift (offset : Nat) (piece : Nat × List σ) : Nat × List σ := (offset + piece.1, piece.2)

theorem placed_shift (offset start : Nat) (pieces : List (List σ)) :
    placed (offset + start) pieces = (placed start pieces).map (shift offset) := by
  induction pieces generalizing start with
  | nil => rfl
  | cons piece pieces ih =>
    rw [placed, placed, List.map_cons, ← ih, shift]
    simp only [Nat.add_assoc]

theorem map_snd_placed (start : Nat) (pieces : List (List σ)) :
    (placed start pieces).map Prod.snd = pieces := by
  induction pieces generalizing start with
  | nil => rfl
  | cons piece pieces ih => rw [placed, List.map_cons, ih]

theorem map_snd_runs (p : σ → Bool) (l : List σ) :
    (runs p l).map Prod.snd = (l.splitOnP p).filter fun piece => decide (piece ≠ []) := by
  rw [runs, ← map_snd_placed 0 (l.splitOnP p), List.filter_map, map_snd_placed]
  rfl

theorem runs_congr {p q : σ → Bool} {l : List σ} (same : ∀ ch ∈ l, p ch = q ch) :
    runs p l = runs q l := by
  have pieces : l.splitOnP p = l.splitOnP q := by
    induction l with
    | nil => rfl
    | cons ch l ih =>
      obtain ⟨here, later⟩ := List.forall_mem_cons.mp same
      rw [List.splitOnP_cons_eq_if_modifyHead, List.splitOnP_cons_eq_if_modifyHead, here, ih later]
  rw [runs, runs, pieces]

variable {p : σ → Bool}

/-- A list is clean, or goes on after a first delimiter. -/
theorem clean_or_split (p : σ → Bool) (l : List σ) :
    (∀ ch ∈ l, p ch = false) ∨ ∃ w d rest, l = w ++ d :: rest ∧ (∀ ch ∈ w, p ch = false) ∧
      p d = true := by
  induction l with
  | nil => exact .inl nofun
  | cons ch l ih =>
    cases delimiter : p ch with
    | true => exact .inr ⟨[], ch, l, rfl, nofun, delimiter⟩
    | false =>
      rcases ih with clean | ⟨w, d, rest, rfl, clean, isDelimiter⟩
      · exact .inl (List.forall_mem_cons.mpr ⟨delimiter, clean⟩)
      · exact .inr ⟨ch :: w, d, rest, rfl, List.forall_mem_cons.mpr ⟨delimiter, clean⟩, isDelimiter⟩

theorem split_induction {motive : List σ → Prop} (whole : ∀ l, (∀ ch ∈ l, p ch = false) → motive l)
    (split : ∀ w d rest, (∀ ch ∈ w, p ch = false) → p d = true → motive rest →
      motive (w ++ d :: rest)) (l : List σ) : motive l := by
  induction length : l.length using Nat.strong_induction_on generalizing l with
  | _ n ih =>
    rcases clean_or_split p l with clean | ⟨w, d, rest, rfl, clean, delimiter⟩
    · exact whole l clean
    · have shorter : rest.length < n := by
        rw [← length, List.length_append, List.length_cons]
        omega
      exact split w d rest clean delimiter (ih rest.length shorter rest rfl)

/-! ### Runs of the two kinds of lists -/

theorem runs_clean {l : List σ} (clean : ∀ ch ∈ l, p ch = false) :
    runs p l = if l = [] then [] else [(0, l)] := by
  rw [runs, List.splitOnP_eq_singleton clean, placed, placed]
  by_cases nothing : l = []
  · simp [nothing]
  · simp [nothing]

theorem runs_split {w rest : List σ} {d : σ} (clean : ∀ ch ∈ w, p ch = false)
    (delimiter : p d = true) :
    runs p (w ++ d :: rest) = (if w = [] then [] else [(0, w)]) ++ (runs p rest).map
      (shift (w.length + 1)) := by
  rw [runs, List.splitOnP_append_cons_of_forall_mem clean d delimiter, placed, Nat.zero_add]
  have later : (placed (w.length + 1) (rest.splitOnP p)).filter
      (fun piece => decide (piece.2 ≠ [])) = (runs p rest).map (shift (w.length + 1)) := by
    rw [← Nat.add_zero (w.length + 1), placed_shift, List.filter_map]
    rfl
  rw [List.filter_cons, later]
  by_cases nothing : w = []
  · simp [nothing]
  · simp [nothing]

theorem nil_of_last {l : List σ} (clean : ∀ ch ∈ l, p ch = false)
    (boundary : ∀ ch ∈ l.getLast?, p ch = true) : l = [] := by
  rcases List.eq_nil_or_concat l with rfl | ⟨l, ch, rfl⟩
  · rfl
  · have here := boundary ch (by simp)
    rw [clean ch (by simp)] at here
    cases here

theorem nil_of_head {l : List σ} (clean : ∀ ch ∈ l, p ch = false)
    (boundary : ∀ ch ∈ l.head?, p ch = true) : l = [] := by
  cases l with
  | nil => rfl
  | cons ch l =>
    have here := boundary ch rfl
    rw [clean ch List.mem_cons_self] at here
    cases here

theorem getLast?_split (w rest : List σ) (d : σ) :
    (w ++ d :: rest).getLast? = some (rest.getLast?.getD d) := by
  rw [List.getLast?_append, List.getLast?_cons, Option.some_or]

theorem maximalRun_clean {l run : List σ} {start : Nat} (clean : ∀ ch ∈ l, p ch = false) :
    MaximalRun p l start run ↔ l ≠ [] ∧ start = 0 ∧ run = l := by
  constructor
  · intro maximal
    obtain ⟨before, after, rfl, rfl, left, right⟩ := maximal.stands
    obtain rfl := nil_of_last (fun ch member => clean ch (List.mem_append_left _ member)) left
    obtain rfl := nil_of_head
      (fun ch member => clean ch (List.mem_append_right _ (List.mem_append_right _ member))) right
    rw [List.nil_append, List.append_nil]
    exact ⟨maximal.goesOn, rfl, rfl⟩
  · rintro ⟨goesOn, rfl, rfl⟩
    exact ⟨goesOn, clean, [], [], by simp, rfl, nofun, nofun⟩

theorem maximalRun_split {w rest run : List σ} {d : σ} {start : Nat}
    (clean : ∀ ch ∈ w, p ch = false) (delimiter : p d = true) :
    MaximalRun p (w ++ d :: rest) start run ↔
      (w ≠ [] ∧ start = 0 ∧ run = w) ∨ ∃ start', start = w.length + 1 + start' ∧
        MaximalRun p rest start' run := by
  constructor
  · intro maximal
    obtain ⟨before, after, split, rfl, left, right⟩ := maximal.stands
    rcases List.append_eq_append_iff.mp split with ⟨middle, rfl, split'⟩ | ⟨middle, rfl, split'⟩
    · cases middle with
      | nil =>
        -- the run begins with the delimiter
        rw [List.nil_append] at split'
        have here := maximal.clean d (by
          cases run with
          | nil => exact absurd rfl maximal.goesOn
          | cons ch run => rw [(List.cons.inj split').1]; exact List.mem_cons_self)
        rw [delimiter] at here
        cases here
      | cons ch middle =>
        obtain ⟨rfl, rfl⟩ := List.cons.inj split'
        refine .inr ⟨middle.length, ?_, maximal.goesOn, maximal.clean, middle, after, rfl, rfl,
          fun last member => left last ?_, right⟩
        · simp only [List.length_append, List.length_cons]
          omega
        · rw [getLast?_split, Option.mem_def.mp member]
          rfl
    · obtain rfl := nil_of_last (fun ch member => clean ch (List.mem_append_left _ member)) left
      rw [List.nil_append] at clean
      rcases List.append_eq_append_iff.mp split' with ⟨between, rfl, rfl⟩ | ⟨between, rfl, split''⟩
      · obtain rfl :=
          nil_of_head (fun ch member => clean ch (List.mem_append_right _ member)) fun ch first =>
            right ch (by
          rw [List.head?_append, Option.mem_def.mp first]
          rfl)
        rw [List.append_nil]
        exact .inl ⟨maximal.goesOn, rfl, rfl⟩
      · cases between with
        | nil =>
          rw [List.append_nil]
          exact .inl ⟨by simpa using maximal.goesOn, rfl, rfl⟩
        | cons ch between =>
          obtain ⟨rfl, -⟩ := List.cons.inj split''
          have here := maximal.clean d (by simp)
          rw [delimiter] at here
          cases here
  · rintro (⟨goesOn, rfl, rfl⟩ | ⟨start', rfl, maximal⟩)
    · exact ⟨goesOn, clean, [], d :: rest, rfl, rfl, nofun,
        fun ch first => by cases first; exact delimiter⟩
    · obtain ⟨before, after, rfl, rfl, left, right⟩ := maximal.stands
      refine ⟨maximal.goesOn, maximal.clean, w ++ d :: before, after, by simp, ?_,
        fun ch last => ?_, right⟩
      · simp only [List.length_append, List.length_cons]
        omega
      · rw [getLast?_split, Option.mem_some_iff] at last
        cases here : before.getLast? with
        | none => rwa [← last, here]
        | some ch' =>
          rw [← last, here]
          exact left ch' here

/-! ### All runs -/

theorem mem_map_shift {offset start : Nat} {run : List σ} {found : List (Nat × List σ)} :
    (start, run) ∈ found.map (shift offset) ↔
      ∃ start', start = offset + start' ∧ (start', run) ∈ found := by
  rw [List.mem_map]
  constructor
  · rintro ⟨⟨start', run'⟩, member, same⟩
    cases same
    exact ⟨start', rfl, member⟩
  · rintro ⟨start', rfl, member⟩
    exact ⟨(start', run), member, rfl⟩

theorem runs_allRuns (p : σ → Bool) (l : List σ) : AllRuns p l (runs p l) := by
  induction l using split_induction (p := p) with
  | whole l clean =>
    rw [runs_clean clean]
    split
    · rename_i nothing
      refine ⟨.nil, fun start run => ?_⟩
      rw [maximalRun_clean clean]
      simp [nothing]
    · rename_i goesOn
      refine ⟨List.pairwise_singleton .., fun start run => ?_⟩
      rw [maximalRun_clean clean]
      simp [goesOn]
  | split w d rest clean delimiter ih =>
    rw [runs_split clean delimiter]
    constructor
    · rw [List.pairwise_append, List.pairwise_map]
      refine ⟨?_, ih.ordered.imp fun before => Nat.add_lt_add_left before _,
        fun one first other later => ?_⟩
      · split
        · exact .nil
        · exact List.pairwise_singleton ..
      · split at first
        · cases first
        · obtain ⟨start', offset, -⟩ := mem_map_shift.mp (show (other.1, other.2) ∈ _ from later)
          rw [List.mem_singleton.mp first, offset]
          show 0 < _
          omega
    · intro start run
      rw [maximalRun_split clean delimiter, List.mem_append, mem_map_shift]
      apply or_congr
      · by_cases nothing : w = []
        · simp [nothing]
        · simp [nothing]
      · simp only [ih.maximal]

theorem AllRuns.nodup {l : List σ} {found : List (Nat × List σ)} (all : AllRuns p l found) :
    found.Nodup :=
  all.ordered.imp fun before same => by
    rw [same] at before
    exact Nat.lt_irrefl _ before

theorem AllRuns.eq_runs {l : List σ} {found : List (Nat × List σ)} (all : AllRuns p l found) :
    found = runs p l := by
  have others := runs_allRuns p l
  have same : found.Perm (runs p l) := by
    rw [List.perm_ext_iff_of_nodup all.nodup others.nodup]
    intro piece
    exact (all.maximal piece.1 piece.2).trans (others.maximal piece.1 piece.2).symm
  exact same.eq_of_pairwise (fun one other _ _ before behind => absurd before (Nat.lt_asymm behind))
    all.ordered others.ordered

theorem exists_clean_prefix (p : σ → Bool) (l : List σ) :
    ∃ right rest, l = right ++ rest ∧ (∀ ch ∈ right, p ch = false) ∧ ∀ ch ∈ rest.head?,
      p ch = true := by
  rcases clean_or_split p l with clean | ⟨w, d, rest, rfl, clean, delimiter⟩
  · exact ⟨l, [], by simp, clean, nofun⟩
  · exact ⟨w, d :: rest, rfl, clean, fun ch first => by cases first; exact delimiter⟩

theorem exists_clean_suffix (p : σ → Bool) (l : List σ) :
    ∃ rest left, l = rest ++ left ∧ (∀ ch ∈ left, p ch = false) ∧ ∀ ch ∈ rest.getLast?,
      p ch = true := by
  obtain ⟨left, rest, split, clean, boundary⟩ := exists_clean_prefix p l.reverse
  refine ⟨rest.reverse, left.reverse, ?_, fun ch member => clean ch (List.mem_reverse.mp member),
    fun ch last => boundary ch ?_⟩
  · rw [← List.reverse_append, ← split, List.reverse_reverse]
  · rwa [List.getLast?_reverse] at last

/-- A clean part of a list stands in one of its runs. -/
theorem exists_run_of_clean (before after : List σ) {w : List σ} (goesOn : w ≠ [])
    (clean : ∀ ch ∈ w, p ch = false) :
    ∃ start left right, MaximalRun p (before ++ (w ++ after)) start (left ++ (w ++ right)) ∧
      start + left.length = before.length := by
  obtain ⟨rest, left, rfl, cleanLeft, boundaryLeft⟩ := exists_clean_suffix p before
  obtain ⟨right, rest', rfl, cleanRight, boundaryRight⟩ := exists_clean_prefix p after
  refine ⟨rest.length, left, right,
    ⟨by simp [goesOn], fun ch member => ?_, rest, rest', by simp, rfl, boundaryLeft, boundaryRight⟩,
    by simp⟩
  rw [List.mem_append, List.mem_append] at member
  rcases member with inLeft | inside | inRight
  · exact cleanLeft ch inLeft
  · exact clean ch inside
  · exact cleanRight ch inRight

/-! ### Places -/

variable {l run run' : List σ} {start start' : Nat}

theorem MaximalRun.isPrefix (maximal : MaximalRun p l start run) : run <+: l.drop start := by
  obtain ⟨before, after, rfl, rfl, -, -⟩ := maximal.stands
  rw [List.drop_left]
  exact List.prefix_append _ _

/-- Between two runs there is a delimiter. -/
theorem MaximalRun.length_lt (maximal : MaximalRun p l start run)
    (maximal' : MaximalRun p l start' run') (before : start < start') :
    start + run.length < start' := by
  obtain ⟨left, after, split, rfl, -, -⟩ := maximal.stands
  obtain ⟨left', after', split', rfl, boundary, -⟩ := maximal'.stands
  rcases List.eq_nil_or_concat left' with rfl | ⟨init, d, rfl⟩
  · exact absurd before (Nat.not_lt_zero _)
  by_contra within
  rw [List.concat_eq_append] at boundary split' before within
  rw [List.length_append, List.length_singleton] at before within
  have delimiter := boundary d (by simp)
  have there : l[init.length]? = some d := by
    rw [split', List.append_assoc, List.getElem?_append_right (Nat.le_refl _), Nat.sub_self]
    rfl
  rw [split, List.getElem?_append_right (by omega), List.getElem?_append_left (by omega)] at there
  rw [maximal.clean d (List.mem_of_getElem? there)] at delimiter
  cases delimiter

theorem AllRuns.pairwise_iff {found : List (Nat × List σ)} {R : Nat × List σ → Nat × List σ → Prop}
    (all : AllRuns p l found) :
    found.Pairwise R ↔ ∀ one ∈ found, ∀ other ∈ found, one.1 < other.1 → R one other := by
  constructor
  · intro pairwise one first other second before
    obtain ⟨left, right, rfl⟩ := List.append_of_mem second
    rcases List.mem_append.mp first with earlier | later
    · exact (List.pairwise_append.mp pairwise).2.2 one earlier other List.mem_cons_self
    · rcases List.mem_cons.mp later with rfl | later
      · exact absurd before (Nat.lt_irrefl _)
      · have behind := List.rel_of_pairwise_cons (List.pairwise_append.mp all.ordered).2.1 later
        exact absurd before (Nat.lt_asymm behind)
  · intro related
    exact all.ordered.imp_of_mem fun first second before => related _ first _ second before

/-- A run occurs before the place where it stands exactly if it occurs in an earlier run. -/
theorem AllRuns.occurs_before_iff {found : List (Nat × List σ)} (all : AllRuns p l found)
    (member : (start, run) ∈ found) :
    (∃ earlier < start, run <+: l.drop earlier) ↔
      ∃ other ∈ found, other.1 < start ∧ run <:+: other.2 := by
  have maximal := (all.maximal start run).mp member
  constructor
  · intro ⟨earlier, before, after, rest⟩
    have split : l = l.take earlier ++ (run ++ after) := by rw [rest, List.take_append_drop]
    obtain ⟨start', left, right, maximal', place⟩ :=
      exists_run_of_clean (l.take earlier) after maximal.goesOn maximal.clean
    rw [← split] at maximal'
    rw [List.length_take] at place
    refine ⟨_, (all.maximal _ _).mpr maximal', ?_, left, right, by rw [List.append_assoc]⟩
    show start' < start
    omega
  · intro ⟨⟨start', run'⟩, member', before, left, right, split⟩
    have maximal' := (all.maximal start' run').mp member'
    have apart := maximal'.length_lt maximal before
    have length := congrArg List.length split
    simp only [List.length_append] at length
    dsimp only at before
    refine ⟨start' + left.length, by omega, ?_⟩
    obtain ⟨after, rest⟩ := maximal'.isPrefix
    rw [← List.drop_drop, ← rest, show run' = left ++ run ++ right from split.symm,
      List.append_assoc, List.append_assoc, List.drop_left]
    exact List.prefix_append _ _

end Runs
