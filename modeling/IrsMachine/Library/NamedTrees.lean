import Mathlib.Data.List.Basic

/-!
# Trees of named entries

A branch holds entries under names. A path is a list of names; what is changed at the end of a path
is not seen from a path that leads elsewhere.
-/

namespace NamedTrees
universe u v

inductive Tree (K : Type u) (C : Type v) where
  | leaf (content : C)
  | branch (entries : List (K × Tree K C))

variable {K : Type u} {C : Type v} [DecidableEq K]

namespace Tree

def find : Tree K C → List K → Option (Tree K C)
  | tree, [] => some tree
  | leaf _, _ :: _ => none
  | branch entries, name :: path => (entries.lookup name).bind fun child => child.find path

def change (f : List (K × Tree K C) → List (K × Tree K C)) : Tree K C → List K → Tree K C
  | leaf content, _ => leaf content
  | branch entries, [] => branch (f entries)
  | branch entries, name :: path =>
    branch (entries.map fun entry =>
      (entry.1, if entry.1 = name then entry.2.change f path else entry.2))

def remove (tree : Tree K C) (path : List K) (name : K) : Tree K C :=
  tree.change (fun entries => entries.filter fun entry => decide (entry.1 ≠ name)) path

/-- Names are good, and different in each branch. -/
inductive Proper (good : K → Prop) : Tree K C → Prop where
  | leaf (content : C) : Proper good (leaf content)
  | branch {entries : List (K × Tree K C)} (different : (entries.map Prod.fst).Nodup)
    (names : ∀ entry ∈ entries, good entry.1)
      (below : ∀ entry ∈ entries, Proper good entry.2) : Proper good (branch entries)

variable {f : List (K × Tree K C) → List (K × Tree K C)} {tree child : Tree K C}
  {entries : List (K × Tree K C)} {path : List K} {name : K}

@[simp] theorem find_nil (tree : Tree K C) : tree.find [] = some tree := by
  cases tree <;> rfl

theorem find_append (tree : Tree K C) (path rest : List K) :
    tree.find (path ++ rest) = (tree.find path).bind fun child => child.find rest := by
  induction path generalizing tree with
  | nil => rw [List.nil_append, find_nil, Option.bind_some]
  | cons name path ih =>
    cases tree with
    | leaf content => rfl
    | branch entries =>
      rw [List.cons_append, find, find]
      cases entries.lookup name with
      | none => rfl
      | some child => exact ih child

theorem find_head (name : K) (child : Tree K C) (entries : List (K × Tree K C)) :
    (branch ((name, child) :: entries)).find [name] = some child := by
  rw [find, List.lookup_cons_self, Option.bind_some, find_nil]

theorem find_entry {entry : K × Tree K C} (different : (entries.map Prod.fst).Nodup)
    (member : entry ∈ entries) :
    (branch entries).find [entry.1] = some entry.2 := by
  induction entries with
  | nil => cases member
  | cons other entries ih =>
    obtain ⟨notIn, rest⟩ := List.nodup_cons.mp different
    rcases List.mem_cons.mp member with rfl | later
    · exact find_head _ _ _
    · have apart : entry.1 ≠ other.1 := fun same => notIn (same ▸ List.mem_map_of_mem later)
      rw [← ih rest later, find, find, List.lookup_cons, beq_false_of_ne apart]

theorem lookup_map_value (g : K → Tree K C → Tree K C) (entries : List (K × Tree K C)) (other : K) :
    (entries.map fun entry => (entry.1, g entry.1 entry.2)).lookup other =
      (entries.lookup other).map (g other) := by
  induction entries with
  | nil => rfl
  | cons entry entries ih =>
    rw [List.map_cons, List.lookup_cons, List.lookup_cons, ih]
    cases here : other == entry.1 with
    | true => rw [eq_of_beq here, Option.map_some]
    | false => rfl

theorem find_change_cons (f : List (K × Tree K C) → List (K × Tree K C))
    (entries : List (K × Tree K C)) (name other : K) (path rest : List K) :
    ((branch entries).change f (name :: path)).find (other :: rest) =
      (entries.lookup other).bind fun child => if other = name then (child.change f path).find rest
        else child.find rest := by
  rw [change, find, lookup_map_value fun key child => if key =
    name then child.change f path else child]
  cases entries.lookup other with
  | none => rfl
  | some child =>
    rw [Option.map_some, Option.bind_some, Option.bind_some]
    split_ifs
    · rfl
    · rfl

theorem find_change (found : tree.find path = some (branch entries)) :
    (tree.change f path).find path = some (branch (f entries)) := by
  induction path generalizing tree with
  | nil =>
    rw [find_nil, Option.some.injEq] at found
    subst found
    rfl
  | cons name path ih =>
    cases tree with
    | leaf content => cases found
    | branch inner =>
      obtain ⟨child, here, below⟩ := Option.bind_eq_some_iff.mp found
      rw [find_change_cons, here, Option.bind_some, if_pos rfl]
      exact ih below

/-- Entries that the change keeps lead where they led before. -/
theorem find_change_of_apart {other : List K} (behind : ¬other <+: path)
    (kept : ∀ name rest, other = path ++ name :: rest →
      ∀ entries, (f entries).lookup name = entries.lookup name) :
    (tree.change f path).find other = tree.find other := by
  induction path generalizing tree other with
  | nil =>
    cases tree with
    | leaf content => rfl
    | branch entries =>
      cases other with
      | nil => exact absurd List.nil_prefix behind
      | cons name other => rw [change, find, find, kept name other rfl]
  | cons name path ih =>
    cases other with
    | nil => exact absurd List.nil_prefix behind
    | cons name' other =>
      cases tree with
      | leaf content => rfl
      | branch inner =>
        rw [find_change_cons, find]
        congr 1
        funext child
        split_ifs with same
        · subst same
          apply ih
          · exact fun isPrefix => behind ((List.prefix_cons_inj _).mpr isPrefix)
          · exact fun name rest split => kept name rest (by rw [split, List.cons_append])
        · rfl

theorem find_remove (found : tree.find path = some (branch entries)) :
    (tree.remove path name).find path =
      some (branch (entries.filter fun entry => decide (entry.1 ≠ name))) :=
  find_change found

theorem lookup_filter_ne (entries : List (K × Tree K C)) (name : K) :
    (entries.filter fun entry => decide (entry.1 ≠ name)).lookup name = none := by
  rw [List.lookup_eq_none_iff]
  intro entry member
  have different := of_decide_eq_true (List.mem_filter.mp member).2
  exact bne_iff_ne.mpr (Ne.symm different)

/-- Nothing is left at the path of what was removed, nor below. -/
theorem find_removed (found : tree.find path = some (branch entries)) (name : K) (rest : List K) :
    (tree.remove path name).find (path ++ name :: rest) = none := by
  rw [find_append, find_remove found, Option.bind_some, find, lookup_filter_ne, Option.bind_none]

theorem exists_branch (found : tree.find (path ++ [name]) = some child) :
    ∃ entries, tree.find path = some (branch entries) ∧ entries.lookup name = some child := by
  rw [find_append] at found
  obtain ⟨parent, here, below⟩ := Option.bind_eq_some_iff.mp found
  cases parent with
  | leaf content => cases below
  | branch entries =>
    rw [find] at below
    obtain ⟨child', there, same⟩ := Option.bind_eq_some_iff.mp below
    rw [find_nil] at same
    cases same
    exact ⟨entries, here, there⟩

theorem lookup_filter_of_ne (entries : List (K × Tree K C)) {name other : K}
    (different : other ≠ name) :
    (entries.filter fun entry => decide (entry.1 ≠ name)).lookup other = entries.lookup other := by
  induction entries with
  | nil => rfl
  | cons entry entries ih =>
    rw [List.filter_cons, List.lookup_cons, ← ih]
    by_cases here : entry.1 = name
    · rw [if_neg (by simpa using here), beq_false_of_ne (here ▸ different)]
    · rw [if_pos (by simpa using here), List.lookup_cons]

/-- Paths that neither lead to what was removed, nor through it, lead where they led before. -/
theorem find_remove_of_apart {other : List K} (ahead : ¬path ++ [name] <+: other)
    (behind : ¬other <+: path) :
    (tree.remove path name).find other = tree.find other := by
  apply find_change_of_apart behind
  intro name' rest split entries
  apply lookup_filter_of_ne
  intro same
  exact ahead ⟨rest, by rw [split, same, List.append_assoc, List.singleton_append]⟩

/-! ### New branches -/

/-- Nothing but branches along the path. -/
def chain : List K → Tree K C
  | [] => branch []
  | name :: path => branch [(name, chain path)]

/-- Branches along the path, where there is nothing yet. A leaf on the path is in the way. -/
def makeBranches : Tree K C → List K → Option (Tree K C)
  | leaf _, _ => none
  | branch entries, [] => some (branch entries)
  | branch entries, name :: path =>
    match entries.lookup name with
    | none => some (branch (entries ++ [(name, chain path)]))
    | some child => (child.makeBranches path).map fun made =>
        branch (entries.map fun entry => (entry.1, if entry.1 = name then made else entry.2))

theorem find_chain (path : List K) : (chain path : Tree K C).find path = some (branch []) := by
  induction path with
  | nil => rfl
  | cons name path ih => rw [chain, find, List.lookup_cons_self, Option.bind_some, ih]

theorem find_chain_of_apart {other : List K} (apart : ¬other <+: path) :
    (chain path : Tree K C).find other = none := by
  induction path generalizing other with
  | nil =>
    cases other with
    | nil => exact absurd List.nil_prefix apart
    | cons name other => rfl
  | cons name path ih =>
    cases other with
    | nil => exact absurd List.nil_prefix apart
    | cons name' other =>
      rw [chain, find, List.lookup_cons, List.lookup_nil]
      cases same : name' == name with
      | false => rfl
      | true =>
        rw [eq_of_beq same, List.prefix_cons_inj] at apart
        exact ih apart

theorem lookup_concat (entries : List (K × Tree K C)) (name other : K) (child : Tree K C) :
    (entries ++ [(name, child)]).lookup other =
      (entries.lookup other).or (if other = name then some child else none) := by
  rw [List.lookup_append, List.lookup_cons, List.lookup_nil]
  by_cases same : other = name
  · rw [if_pos same, same, beq_self_eq_true]
  · rw [if_neg same, beq_false_of_ne same]

variable {made : Tree K C}

theorem makeBranches_cons (entries : List (K × Tree K C)) (name : K) (path : List K)
    (run : (branch entries).makeBranches (name :: path) = some made) :
    (entries.lookup name = none ∧ made = branch (entries ++ [(name, chain path)])) ∨
      ∃ child below, entries.lookup name = some child ∧ child.makeBranches path = some below ∧
        made = branch (entries.map fun entry =>
          (entry.1, if entry.1 = name then below else entry.2)) := by
  rw [makeBranches] at run
  split at run
  · rename_i absent
    exact .inl ⟨absent, (Option.some.inj run).symm⟩
  · rename_i child here
    obtain ⟨below, step, done⟩ := Option.map_eq_some_iff.mp run
    exact .inr ⟨child, below, here, step, done.symm⟩

theorem find_made (run : tree.makeBranches path = some made) :
    ∃ entries, made.find path = some (branch entries) := by
  induction path generalizing tree made with
  | nil =>
    cases tree with
    | leaf content => cases run
    | branch entries =>
      cases run
      exact ⟨entries, rfl⟩
  | cons name path ih =>
    cases tree with
    | leaf content => cases run
    | branch entries =>
      obtain ⟨absent, rfl⟩ | ⟨child, below, here, step, rfl⟩ :=
        makeBranches_cons entries name path run
      · rw [find, lookup_concat, absent, Option.none_or, if_pos rfl, Option.bind_some, find_chain]
        exact ⟨[], rfl⟩
      · rw [find, lookup_map_value fun key inner => if key = name then below else inner, here,
          Option.map_some, Option.bind_some, if_pos rfl]
        exact ih step

/-- Only the places on the path itself can change. -/
theorem find_made_of_apart {other : List K} (run : tree.makeBranches path = some made)
    (apart : ¬other <+: path) :
    made.find other = tree.find other := by
  induction path generalizing tree made other with
  | nil =>
    cases tree with
    | leaf content => cases run
    | branch entries =>
      cases run
      rfl
  | cons name path ih =>
    cases other with
    | nil => exact absurd List.nil_prefix apart
    | cons name' other =>
      cases tree with
      | leaf content => cases run
      | branch entries =>
        by_cases same : name' = name
        · subst same
          rw [List.prefix_cons_inj] at apart
          obtain ⟨absent, rfl⟩ | ⟨child, below, here, step, rfl⟩ :=
            makeBranches_cons entries name' path run
          · rw [find, find, lookup_concat, absent, Option.none_or, if_pos rfl, Option.bind_some,
              Option.bind_none, find_chain_of_apart apart]
          · rw [find, find, lookup_map_value fun key inner => if key = name' then below else inner,
              here, Option.map_some, Option.bind_some, Option.bind_some, if_pos rfl]
            exact ih step apart
        · obtain ⟨absent, rfl⟩ | ⟨child, below, here, step, rfl⟩ :=
            makeBranches_cons entries name path run
          · rw [find, find, lookup_concat, if_neg same, Option.or_none]
          · rw [find, find, lookup_map_value fun key inner => if key = name then below else inner]
            simp only [if_neg same, Option.map_id']

/-- What is on the path is a branch afterwards. -/
theorem find_made_of_prefix {other : List K} (run : tree.makeBranches path = some made)
    (onPath : other <+: path) :
    ∃ entries, made.find other = some (branch entries) := by
  obtain ⟨entries, whole⟩ := find_made run
  obtain ⟨rest, rfl⟩ := onPath
  rw [find_append] at whole
  obtain ⟨middle, here, below⟩ := Option.bind_eq_some_iff.mp whole
  cases middle with
  | branch inner => exact ⟨inner, here⟩
  | leaf content =>
    cases rest with
    | nil => cases below
    | cons name rest => cases below

theorem makeBranches_eq_none : tree.makeBranches path = none ↔
    ∃ other content, other <+: path ∧ tree.find other = some (leaf content) := by
  induction path generalizing tree with
  | nil =>
    cases tree with
    | leaf content => exact iff_of_true rfl ⟨[], content, List.nil_prefix, rfl⟩
    | branch entries =>
      refine iff_of_false nofun fun inTheWay => ?_
      obtain ⟨other, content, onPath, found⟩ := inTheWay
      rw [List.prefix_nil.mp onPath, find_nil] at found
      cases found
  | cons name path ih =>
    cases tree with
    | leaf content => exact iff_of_true rfl ⟨[], content, List.nil_prefix, rfl⟩
    | branch entries =>
      rw [makeBranches]
      cases here : entries.lookup name with
      | none =>
        refine iff_of_false nofun fun inTheWay => ?_
        obtain ⟨other, content, onPath, found⟩ := inTheWay
        cases other with
        | nil => cases found
        | cons name' other =>
          rw [(List.cons_prefix_cons.mp onPath).1, find, here] at found
          cases found
      | some child =>
        dsimp only
        rw [Option.map_eq_none_iff, ih]
        constructor
        · intro inTheWay
          obtain ⟨other, content, onPath, found⟩ := inTheWay
          refine ⟨name :: other, content, (List.prefix_cons_inj name).mpr onPath, ?_⟩
          rw [find, here, Option.bind_some, found]
        · intro inTheWay
          obtain ⟨other, content, onPath, found⟩ := inTheWay
          cases other with
          | nil => cases found
          | cons name' other =>
            obtain ⟨rfl, rest⟩ := List.cons_prefix_cons.mp onPath
            rw [find, here, Option.bind_some] at found
            exact ⟨other, content, rest, found⟩

end Tree

end NamedTrees
