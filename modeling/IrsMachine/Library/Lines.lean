import Mathlib.Data.List.Basic

/-!
# Lines of a text

The lines of a text, each with its terminator, and without it. Only the last line may have none:
who takes away the last character of every line without a look at it loses one there.
-/

namespace Lines
variable {α : Type*} [DecidableEq α]

/-- A line ends behind `newline`, or with the text. -/
def terminatedLines (newline : α) : List α → List (List α)
  | [] => []
  | ch :: rest =>
    if ch = newline then [ch] :: terminatedLines newline rest
    else
      match terminatedLines newline rest with
      | [] => [[ch]]
      | line :: lines => (ch :: line) :: lines

def stripped (newline : α) (line : List α) : List α :=
  if line.getLast? = some newline then line.dropLast else line

variable {newline : α}

/-- The lines are the whole text, cut. -/
theorem flatten_terminatedLines (newline : α) (text : List α) :
    (terminatedLines newline text).flatten = text := by
  induction text with
  | nil => rfl
  | cons ch rest ih =>
    rw [terminatedLines]
    split_ifs
    · rw [List.flatten_cons, ih, List.singleton_append]
    · split
      · rename_i none
        rw [none, List.flatten_nil] at ih
        rw [← ih]
        rfl
      · rename_i line lines some
        rw [some, List.flatten_cons] at ih
        rw [List.flatten_cons, List.cons_append, ih]

theorem terminatedLines_eq_nil {text : List α} : terminatedLines newline text = [] ↔ text = [] := by
  constructor
  · intro none
    rw [← flatten_terminatedLines newline text, none, List.flatten_nil]
  · intro empty
    rw [empty, terminatedLines]

theorem ne_nil_of_mem_terminatedLines {text line : List α}
    (member : line ∈ terminatedLines newline text) : line ≠ [] := by
  induction text generalizing line with
  | nil => cases member
  | cons ch rest ih =>
    rw [terminatedLines] at member
    split_ifs at member
    · rcases List.mem_cons.mp member with rfl | later
      · exact List.cons_ne_nil _ _
      · exact ih later
    · split at member
      · rw [List.mem_singleton.mp member]
        exact List.cons_ne_nil _ _
      · rename_i first lines some
        rcases List.mem_cons.mp member with rfl | later
        · exact List.cons_ne_nil _ _
        · exact ih (some ▸ List.mem_cons_of_mem first later)

/-- All lines have their terminator exactly when the text ends with one. -/
theorem forall_ended_iff {text : List α} (nonempty : text ≠ []) :
    (∀ line ∈ terminatedLines newline text, line.getLast? = some newline) ↔
      text.getLast? = some newline := by
  induction text with
  | nil => exact absurd rfl nonempty
  | cons ch rest ih =>
    by_cases last : rest = []
    · subst last
      rw [terminatedLines]
      split_ifs with same
      · simp [terminatedLines]
      · simp [terminatedLines]
    · have goesOn : (ch :: rest).getLast? = rest.getLast? := List.getLast?_cons_of_ne_nil last
      rw [goesOn, ← ih last, terminatedLines]
      split_ifs with same
      · rw [List.forall_mem_cons, List.getLast?_singleton, same]
        exact and_iff_right rfl
      · split
        · rename_i none
          exact absurd (terminatedLines_eq_nil.mp none) last
        · rename_i line lines some
          have member : line ∈ terminatedLines newline rest := some ▸ List.mem_cons_self
          have more := ne_nil_of_mem_terminatedLines member
          rw [some, List.forall_mem_cons, List.forall_mem_cons, List.getLast?_cons_of_ne_nil more]

theorem dropLast_eq_stripped_iff {line : List α} (nonempty : line ≠ []) :
    line.dropLast = stripped newline line ↔ line.getLast? = some newline := by
  unfold stripped
  split_ifs with ended
  · exact iff_of_true rfl ended
  · refine iff_of_false (fun same => ?_) ended
    have lengths := congrArg List.length same
    have := List.length_pos_iff.mpr nonempty
    rw [List.length_dropLast] at lengths
    omega

/-- Without their last characters the lines are complete exactly when the text ends with a
terminator. -/
theorem map_dropLast_eq_iff (newline : α) {text : List α} (nonempty : text ≠ []) :
    (terminatedLines newline text).map List.dropLast = (terminatedLines newline text).map
      (stripped newline) ↔
      text.getLast? = some newline := by
  rw [← forall_ended_iff nonempty, List.map_inj_left]
  exact forall₂_congr fun line member =>
    dropLast_eq_stripped_iff (ne_nil_of_mem_terminatedLines member)

end Lines
