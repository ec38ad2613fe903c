import Mathlib.Data.List.Nodup
import Mathlib.Logic.Function.Basic

/-!
# Doubly linked segments

Cells at addresses of a store, each with a link to the next and to the one before. A segment
is a run of cells whose links agree; cells are put into it and taken out of it by changing the
links of its neighbours.
-/

namespace LinkedSegments
universe u v

structure Cell (A : Type u) (D : Type v) where
  next : Option A
  prev : Option A
  data : D

section
variable {A : Type u} {D : Type v}

abbrev Store (A : Type u) (D : Type v) := A → Option (Cell A D)

abbrev addresses (cells : List (A × D)) : List A := cells.map Prod.fst

/-- The cells from `first` on. The first one points back to `before`, and the last one, at
`last`, points on to `stop`. Without cells `first` is `stop` and `last` is `before`. -/
def Segment (store : Store A D) : Option A → Option A → List (A × D) → Option A → Option A → Prop
  | before, first, [], last, stop => first = stop ∧ last = before
  | before, first, (address, data) :: rest, last, stop =>
    first = some address ∧ ∃ next, store address = some { next, prev := before, data } ∧
      Segment store (some address) next rest last stop

variable {store store' : Store A D} {before first last stop : Option A} {cells more : List (A × D)}

theorem segment_append :
    Segment store before first (cells ++ more) last stop ↔
      ∃ middle next, Segment store before first cells middle next ∧
        Segment store middle next more last stop := by
  induction cells generalizing before first with
  | nil =>
    constructor
    · intro segment
      exact ⟨before, first, ⟨rfl, rfl⟩, segment⟩
    · rintro ⟨_, _, ⟨rfl, rfl⟩, segment⟩
      exact segment
  | cons cell cells ih =>
    obtain ⟨address, data⟩ := cell
    constructor
    · rintro ⟨start, next, cell, rest⟩
      obtain ⟨middle, next', left, right⟩ := ih.mp rest
      exact ⟨middle, next', ⟨start, next, cell, left⟩, right⟩
    · rintro ⟨middle, next', ⟨start, next, cell, left⟩, right⟩
      exact ⟨start, next, cell, ih.mpr ⟨middle, next', left, right⟩⟩

theorem segment_singleton {address : A} {data : D} :
    Segment store before first [(address, data)] last stop ↔
      first = some address ∧ last = some address ∧
      store address = some { next := stop, prev := before, data } := by
  constructor
  · rintro ⟨start, next, cell, rfl, rfl⟩
    exact ⟨start, rfl, cell⟩
  · rintro ⟨start, rfl, cell⟩
    exact ⟨start, stop, cell, rfl, rfl⟩

theorem Segment.congr (segment : Segment store before first cells last stop)
    (same : ∀ address ∈ addresses cells, store' address = store address) :
    Segment store' before first cells last stop := by
  induction cells generalizing before first with
  | nil => exact segment
  | cons cell cells ih =>
    obtain ⟨address, data⟩ := cell
    obtain ⟨start, next, cell, rest⟩ := segment
    refine ⟨start, next, (same address (by simp)).trans cell, ih rest fun other member =>
      same other ?_⟩
    exact List.mem_cons_of_mem _ member

theorem Segment.first_eq (segment : Segment store before first cells last stop)
    (goesOn : cells ≠ []) :
    ∃ address ∈ addresses cells, first = some address := by
  cases cells with
  | nil => exact absurd rfl goesOn
  | cons cell cells => exact ⟨cell.1, by simp, segment.1⟩

theorem Segment.last_eq (segment : Segment store before first cells last stop)
    (goesOn : cells ≠ []) :
    ∃ address ∈ addresses cells, last = some address := by
  obtain ⟨init, cell, rfl⟩ := List.eq_nil_or_concat cells |>.resolve_left goesOn
  obtain ⟨middle, next, -, only⟩ := segment_append.mp (List.concat_eq_append ▸ segment)
  exact ⟨cell.1, by simp, (segment_singleton.mp only).2.1⟩

theorem Segment.present (segment : Segment store before first cells last stop) {address : A}
    (member : address ∈ addresses cells) :
    (store address).isSome := by
  obtain ⟨⟨_, data⟩, inside, rfl⟩ := List.mem_map.mp member
  obtain ⟨left, right, rfl⟩ := List.append_of_mem inside
  obtain ⟨middle, next, -, -, next', cell, -⟩ := segment_append.mp segment
  rw [cell]
  rfl

theorem nodup_addresses_append :
    (addresses (cells ++ more)).Nodup ↔ (addresses cells).Nodup ∧ (addresses more).Nodup ∧
      ∀ address ∈ addresses cells, address ∉ addresses more := by
  rw [addresses, List.map_append, List.nodup_append]
  constructor
  · rintro ⟨left, right, apart⟩
    exact ⟨left, right, fun address one two => apart address one address two rfl⟩
  · rintro ⟨left, right, apart⟩
    refine ⟨left, right, ?_⟩
    rintro address one other two rfl
    exact apart address one two

/-- The link into the cells of `more` does not lead into those before them, nor back. -/
theorem Segment.apart {middle next : Option A} (left : Segment store none first cells middle next)
    (right : Segment store middle next more last stop)
    (different : (addresses (cells ++ more)).Nodup) (goesOn : more ≠ []) :
    (∀ address ∈ addresses cells, next ≠ some address) ∧ ∀ address ∈ addresses more,
      middle ≠ some address := by
  obtain ⟨-, -, apart⟩ := nodup_addresses_append.mp different
  constructor
  · rintro address member rfl
    obtain ⟨other, inside, same⟩ := right.first_eq goesOn
    cases same
    exact apart address member inside
  · rintro address member rfl
    cases cells with
    | nil => cases left.2
    | cons cell cells =>
      obtain ⟨other, inside, same⟩ := left.last_eq (List.cons_ne_nil _ _)
      cases same
      exact apart address inside member

/-- The links of a segment lead to its cells or out at its ends. -/
theorem Segment.links (segment : Segment store before first cells last stop) {address : A}
    (member : address ∈ addresses cells) {cell : Cell A D} (here : store address = some cell) :
    (cell.next = stop ∨ ∃ other ∈ addresses cells, cell.next = some other) ∧
      (cell.prev = before ∨ ∃ other ∈ addresses cells, cell.prev = some other) := by
  obtain ⟨⟨_, data⟩, inside, rfl⟩ := List.mem_map.mp member
  obtain ⟨left, right, rfl⟩ := List.append_of_mem inside
  obtain ⟨middle, start, beginning, -, next, here', rest⟩ := segment_append.mp segment
  obtain rfl := Option.some.inj (here.symm.trans here')
  constructor
  · cases right with
    | nil => exact .inl rest.1
    | cons other right => exact .inr ⟨other.1, by simp, rest.1⟩
  · rcases List.eq_nil_or_concat left with rfl | ⟨init, other, rfl⟩
    · exact .inl beginning.2
    · obtain ⟨address, member, same⟩ := beginning.last_eq (by simp)
      exact .inr ⟨address, by rw [addresses, List.map_append]; exact List.mem_append_left _ member,
        same⟩

/-- A cell is linked to its neighbours, which are `before` and `stop` at the ends. -/
theorem Segment.cell_at (segment : Segment store before first cells last stop) {i : Nat}
    {address : A} {data : D} (here : cells[i]? = some (address, data)) :
    ∃ cell, store address = some cell ∧ cell.data = data ∧
      (before :: (addresses cells).map some)[i]? = some cell.prev ∧
      ((addresses cells).map some ++ [stop])[i + 1]? = some cell.next := by
  induction cells generalizing before first i with
  | nil => cases here
  | cons cell cells ih =>
    obtain ⟨address', data'⟩ := cell
    obtain ⟨-, next, found, rest⟩ := segment
    cases i with
    | zero =>
      cases here
      refine ⟨_, found, rfl, rfl, ?_⟩
      cases cells with
      | nil => exact congrArg some rest.1.symm
      | cons other cells => exact congrArg some rest.1.symm
    | succ i => exact ih rest here

/-- What can be reached along the links in both directions. -/
inductive Reaches (store : Store A D) : Option A → A → Prop
  | here (address : A) : Reaches store (some address) address
  | next {address other : A} {cell : Cell A D} (found : store address = some cell)
    (rest : Reaches store cell.next other) :
    Reaches store (some address) other
  | prev {address other : A} {cell : Cell A D} (found : store address = some cell)
    (rest : Reaches store cell.prev other) :
    Reaches store (some address) other

theorem Segment.reaches (segment : Segment store none first cells last none) {start : Option A}
    {address : A} (reaches : Reaches store start address)
    (inside : ∀ other, start = some other → other ∈ addresses cells) :
    address ∈ addresses cells := by
  induction reaches with
  | here address => exact inside address rfl
  | next found _ ih =>
    apply ih
    intro other onward
    rcases (segment.links (inside _ rfl) found).1 with stops | ⟨_, member, same⟩
    · exact absurd (onward.symm.trans stops) (Option.some_ne_none _)
    · exact Option.some.inj (onward.symm.trans same) ▸ member
  | prev found _ ih =>
    apply ih
    intro other onward
    rcases (segment.links (inside _ rfl) found).2 with stops | ⟨_, member, same⟩
    · exact absurd (onward.symm.trans stops) (Option.some_ne_none _)
    · exact Option.some.inj (onward.symm.trans same) ▸ member

end

/-! ### Changing links -/

section
variable {A : Type u} {D : Type v} [DecidableEq A]

/-- Through a null pointer nothing is changed. -/
def setNext (store : Store A D) (pointer target : Option A) : Store A D :=
  match pointer with
  | none => store
  | some address =>
    Function.update store address ((store address).map fun cell => { cell with next := target })

def setPrev (store : Store A D) (pointer target : Option A) : Store A D :=
  match pointer with
  | none => store
  | some address =>
    Function.update store address ((store address).map fun cell => { cell with prev := target })

variable {store : Store A D} {before first last stop : Option A} {cells more : List (A × D)}

theorem setNext_other {pointer target : Option A} {address : A}
    (different : pointer ≠ some address) :
    setNext store pointer target address = store address := by
  cases pointer with
  | none => rfl
  | some other => exact Function.update_of_ne (fun same => different (by rw [same])) ..

theorem setPrev_other {pointer target : Option A} {address : A}
    (different : pointer ≠ some address) :
    setPrev store pointer target address = store address := by
  cases pointer with
  | none => rfl
  | some other => exact Function.update_of_ne (fun same => different (by rw [same])) ..

theorem setNext_self {address : A} {cell : Cell A D} {target : Option A}
    (here : store address = some cell) :
    setNext store (some address) target address = some { cell with next := target } := by
  unfold setNext
  dsimp only
  rw [Function.update_self, here, Option.map_some]

theorem setPrev_self {address : A} {cell : Cell A D} {target : Option A}
    (here : store address = some cell) :
    setPrev store (some address) target address = some { cell with prev := target } := by
  unfold setPrev
  dsimp only
  rw [Function.update_self, here, Option.map_some]

@[simp] theorem isSome_setNext (pointer target : Option A) (address : A) :
    (setNext store pointer target address).isSome = (store address).isSome := by
  by_cases here : pointer = some address
  · subst here
    simp [setNext]
  · rw [setNext_other here]

@[simp] theorem isSome_setPrev (pointer target : Option A) (address : A) :
    (setPrev store pointer target address).isSome = (store address).isSome := by
  by_cases here : pointer = some address
  · subst here
    simp [setPrev]
  · rw [setPrev_other here]

theorem setNext_congr {store' : Store A D} {address : A} (pointer target : Option A)
    (same : store address = store' address) :
    setNext store pointer target address = setNext store' pointer target address := by
  by_cases here : pointer = some address
  · subst here
    unfold setNext
    dsimp only
    rw [Function.update_self, Function.update_self, same]
  · rw [setNext_other here, setNext_other here, same]

theorem setPrev_congr {store' : Store A D} {address : A} (pointer target : Option A)
    (same : store address = store' address) :
    setPrev store pointer target address = setPrev store' pointer target address := by
  by_cases here : pointer = some address
  · subst here
    unfold setPrev
    dsimp only
    rw [Function.update_self, Function.update_self, same]
  · rw [setPrev_other here, setPrev_other here, same]

theorem setNext_setPrev (pointer target pointer' target' : Option A) :
    setNext (setPrev store pointer target) pointer' target' =
      setPrev (setNext store pointer' target') pointer target := by
  funext address
  by_cases here : pointer = some address <;> by_cases here' : pointer' = some address
  · subst here here'
    cases cell : store address with
    | none => simp [setNext, setPrev, cell]
    | some cell => simp [setNext, setPrev, cell]
  · rw [setNext_other here']
    exact setPrev_congr _ _ (setNext_other here').symm
  · rw [setPrev_other here]
    exact setNext_congr _ _ (setPrev_other here)
  · rw [setNext_other here', setPrev_other here, setPrev_other here, setNext_other here']

/-- The last cell is made to point elsewhere. -/
theorem Segment.setNext (segment : Segment store before first cells last stop)
    (different : (addresses cells).Nodup) (goesOn : cells ≠ []) (target : Option A) :
    Segment (setNext store last target) before first cells last target := by
  obtain ⟨init, cell, rfl⟩ := List.eq_nil_or_concat cells |>.resolve_left goesOn
  obtain ⟨address, data⟩ := cell
  rw [List.concat_eq_append] at *
  obtain ⟨middle, next, left, right⟩ := segment_append.mp segment
  obtain ⟨rfl, rfl, here⟩ := segment_singleton.mp right
  refine segment_append.mpr ⟨middle, some address, left.congr fun other member => ?_,
    segment_singleton.mpr ⟨rfl, rfl, ?_⟩⟩
  · apply setNext_other
    rintro ⟨rfl⟩
    rw [addresses, List.map_append, List.nodup_append] at different
    exact different.2.2 _ member _ (by simp) rfl
  · rw [setNext_self here]

/-- The first cell is made to point back elsewhere. -/
theorem Segment.setPrev (segment : Segment store before first cells last stop)
    (different : (addresses cells).Nodup) (goesOn : cells ≠ []) (target : Option A) :
    Segment (setPrev store first target) target first cells last stop := by
  cases cells with
  | nil => exact absurd rfl goesOn
  | cons cell cells =>
    obtain ⟨address, data⟩ := cell
    obtain ⟨rfl, next, here, rest⟩ := segment
    refine ⟨rfl, next, by rw [setPrev_self here], rest.congr fun other member => ?_⟩
    apply setPrev_other
    rintro ⟨rfl⟩
    exact (List.nodup_cons.mp different).1 member

/-! ### Putting in and taking out -/

/-- The store with a new cell between two neighbours, of which the first may be missing. -/
def insertCell (store : Store A D) (middle next : Option A) (new : A) (data : D) : Store A D :=
  Function.update (LinkedSegments.setPrev (LinkedSegments.setNext store middle (some new)) next
    (some new)) new
    (some { next, prev := middle, data })

theorem insertCell_other {middle next : Option A} {new address : A} (data : D)
    (notNew : address ≠ new) (notMiddle : middle ≠ some address) (notNext : next ≠ some address) :
    insertCell store middle next new data address = store address := by
  unfold insertCell
  rw [Function.update_of_ne notNew, setPrev_other notNext, setNext_other notMiddle]

/-- A new cell that is linked step by step: after the neighbour before it, or before the one
after it. -/
theorem insertCell_after {middle next : Option A} {new : A} (data : D)
    (notMiddle : middle ≠ some new) (notNext : next ≠ some new) :
    LinkedSegments.setPrev (LinkedSegments.setNext (LinkedSegments.setPrev (LinkedSegments.setNext
      (Function.update store new (some { next := none, prev := none, data })) middle (some new))
        (some new) middle)
      (some new) next) next (some new) = insertCell store middle next new data := by
  funext address
  unfold insertCell
  by_cases here : address = new
  · subst here
    have start : LinkedSegments.setNext
        (Function.update store address (some { next := none, prev := none, data })) middle
        (some address) address = some { next := none, prev := none, data } := by
      rw [setNext_other notMiddle, Function.update_self]
    rw [Function.update_self, setPrev_other notNext, setNext_self (setPrev_self start)]
  · have elsewhere : some new ≠ some address := fun same => here (Option.some.inj same).symm
    rw [Function.update_of_ne here]
    apply setPrev_congr
    rw [setNext_other elsewhere, setPrev_other elsewhere]
    exact setNext_congr _ _ (Function.update_of_ne here ..)

theorem insertCell_before {middle next : Option A} {new : A} (data : D)
    (notMiddle : middle ≠ some new) (notNext : next ≠ some new) :
    LinkedSegments.setNext (LinkedSegments.setPrev (LinkedSegments.setNext (LinkedSegments.setPrev
      (Function.update store new (some { next := none, prev := none, data })) next (some new))
        (some new) next)
      (some new) middle) middle (some new) = insertCell store middle next new data := by
  funext address
  unfold insertCell
  by_cases here : address = new
  · subst here
    have start : LinkedSegments.setPrev
        (Function.update store address (some { next := none, prev := none, data })) next
        (some address) address = some { next := none, prev := none, data } := by
      rw [setPrev_other notNext, Function.update_self]
    rw [Function.update_self, setNext_other notMiddle, setPrev_self (setNext_self start)]
  · have elsewhere : some new ≠ some address := fun same => here (Option.some.inj same).symm
    rw [Function.update_of_ne here]
    refine (setNext_congr middle (some new) ?_).trans
      (congrFun (setNext_setPrev next (some new) middle (some new)) address)
    rw [setPrev_other elsewhere, setNext_other elsewhere]
    exact setPrev_congr _ _ (Function.update_of_ne here ..)

theorem Segment.insertCell {middle next : Option A} {new : A} (data : D)
    (left : Segment store none first cells middle next)
    (right : Segment store middle next more last stop)
    (different : (addresses (cells ++ more)).Nodup) (fresh : new ∉ addresses (cells ++ more))
    (goesOn : more ≠ []) :
    Segment (insertCell store middle next new data) none (if cells = [] then some new else first)
      (cells ++ (new, data) :: more) last stop := by
  obtain ⟨notNext, notMiddle⟩ := left.apart right different goesOn
  obtain ⟨leftNodup, rightNodup, -⟩ := nodup_addresses_append.mp different
  rw [addresses, List.map_append, List.mem_append, not_or] at fresh
  refine segment_append.mpr ⟨middle, some new, ?_, rfl, next, Function.update_self .., ?_⟩
  · by_cases nothing : cells = []
    · subst nothing
      rw [if_pos rfl]
      exact ⟨rfl, left.2⟩
    · rw [if_neg nothing]
      apply (left.setNext leftNodup nothing (some new)).congr
      intro address member
      unfold LinkedSegments.insertCell
      rw [Function.update_of_ne, setPrev_other (notNext address member)]
      rintro rfl
      exact fresh.1 member
  · have linked : Segment (LinkedSegments.setNext store middle (some new)) middle next
        more last stop :=
      right.congr fun address member => setNext_other (notMiddle address member)
    apply (linked.setPrev rightNodup goesOn (some new)).congr
    intro address member
    apply Function.update_of_ne
    rintro rfl
    exact fresh.2 member

/-- The store where two neighbours are linked past what was between them. -/
def removeCell (store : Store A D) (middle next : Option A) : Store A D :=
  LinkedSegments.setPrev (LinkedSegments.setNext store middle next) next middle

theorem removeCell_other {middle next : Option A} {address : A} (notMiddle : middle ≠ some address)
    (notNext : next ≠ some address) :
    removeCell store middle next address = store address := by
  unfold removeCell
  rw [setPrev_other notNext, setNext_other notMiddle]

theorem Segment.removeCell {middle next : Option A} {address : A} {data : D}
    (left : Segment store none first cells middle (some address))
    (right : Segment store middle (some address) ((address, data) :: more) last stop)
    (different : (addresses (cells ++ (address, data) :: more)).Nodup) (goesOn : more ≠ [])
    (follows : Segment store (some address) next more last stop) :
    Segment (removeCell store middle next) none (if cells = [] then next else first)
      (cells ++ more) last stop := by
  obtain ⟨leftNodup, rightNodup, apart⟩ := nodup_addresses_append.mp different
  obtain ⟨-, notMiddle⟩ := left.apart right different (List.cons_ne_nil _ _)
  have moreNodup : (addresses more).Nodup := (List.nodup_cons.mp rightNodup).2
  obtain ⟨start, inside, rfl⟩ := follows.first_eq goesOn
  refine segment_append.mpr ⟨middle, some start, ?_, ?_⟩
  · by_cases nothing : cells = []
    · subst nothing
      rw [if_pos rfl]
      exact ⟨rfl, left.2⟩
    · rw [if_neg nothing]
      apply (left.setNext leftNodup nothing (some start)).congr
      intro other member
      unfold LinkedSegments.removeCell
      apply setPrev_other
      rintro ⟨rfl⟩
      exact apart _ member (List.mem_cons_of_mem _ inside)
  · refine Segment.setPrev (follows.congr fun other member => ?_) moreNodup goesOn middle
    exact setNext_other (notMiddle other (List.mem_cons_of_mem _ member))

end

end LinkedSegments
