import Mathlib.Data.List.Infix
import Mathlib.Data.List.Lex
import Mathlib.Data.Set.Basic

/-!
# Stops of a set of words

A tree with compressed edges that holds a set `K` of words has its nodes at the stops of `K`:
the empty word, the words of `K`, and the words after which two members of `K` go on with
different letters. The definitions here say, in terms of `K` alone, what goes wrong when such a
tree compares letters up to a relation while it is extended (`Clash`), or reads only the first
letter of an edge while it is searched (`Passes`).
-/

namespace Words
variable {σ : Type*}

/-- Two members of `K` go on after `u` with different letters. -/
def Fork (K : Set (List σ)) (u : List σ) : Prop :=
  ∃ a b, a ≠ b ∧ (∃ k ∈ K, u ++ [a] <+: k) ∧ ∃ k ∈ K, u ++ [b] <+: k

def Stop (K : Set (List σ)) (u : List σ) : Prop := u = [] ∨ u ∈ K ∨ Fork K u

/-- `word` leaves the members of `K` between two stops, at a letter that `r` takes for theirs. -/
def Clash (r : σ → σ → Prop) (K : Set (List σ)) (word : List σ) : Prop :=
  ∃ u a b, a ≠ b ∧ r a b ∧ u ++ [a] <+: word ∧ (∃ k ∈ K, u ++ [b] <+: k) ∧ ¬Stop K u

/-- Letter `p` of `k` begins an edge, or lies on the last edge. -/
def Compared (K : Set (List σ)) (k : List σ) (p : Nat) : Prop :=
  Stop K (k.take p) ∨ ∀ p', p < p' → p' < k.length → ¬Stop K (k.take p')

/-- A search for `word` that compares only those letters takes it for `k`. -/
def Passes (K : Set (List σ)) (k word : List σ) : Prop :=
  k.length = word.length ∧ ∀ p < k.length, Compared K k p → word[p]? = k[p]?

def under (K : Set (List σ)) (l : List σ) : Set (List σ) := {word | l ++ word ∈ K}

theorem passes_refl (K : Set (List σ)) (k : List σ) : Passes K k k := ⟨rfl, fun _ _ _ => rfl⟩

theorem exists_first_difference {l m : List σ} (lengths : l.length = m.length) (different : l ≠ m) :
    ∃ u a b, a ≠ b ∧ u ++ [a] <+: l ∧ u ++ [b] <+: m := by
  induction l generalizing m with
  | nil =>
    cases m with
    | nil => exact absurd rfl different
    | cons b m => simp at lengths
  | cons a l ih =>
    cases m with
    | nil => simp at lengths
    | cons b m =>
      by_cases same : a = b
      · subst same
        obtain ⟨u, a', b', ne, first, second⟩ :=
          ih (by simpa using lengths) fun same => different (by rw [same])
        exact ⟨a :: u, a', b', ne, by simpa using first, by simpa using second⟩
      · exact ⟨[], a, b, same, by simp, by simp⟩

theorem prefix_of_fork {l u k m : List σ} {a b : σ} (different : a ≠ b) (first : l <+: k)
    (second : l <+: m) (goes : u ++ [a] <+: k) (other : u ++ [b] <+: m) : l <+: u := by
  by_cases short : l.length ≤ u.length
  · exact List.prefix_of_prefix_length_le first ((List.prefix_append _ _).trans goes) short
  · have la : u ++ [a] <+: l := List.prefix_of_prefix_length_le goes first (by simp; omega)
    have lb : u ++ [b] <+: l := List.prefix_of_prefix_length_le other second (by simp; omega)
    have same := List.prefix_of_prefix_length_le la lb (by simp)
    have := same.eq_of_length (by simp)
    simp only [List.append_cancel_left_eq, List.cons.injEq, and_true] at this
    exact absurd this different

theorem Fork.mono {K L : Set (List σ)} {u : List σ} (sub : K ⊆ L) (fork : Fork K u) : Fork L u := by
  obtain ⟨a, b, different, ⟨k, hk, first⟩, k', hk', second⟩ := fork
  exact ⟨a, b, different, ⟨k, sub hk, first⟩, k', sub hk', second⟩

theorem stop_under {K : Set (List σ)} {l u : List σ} (stop : Stop K (l ++ u)) :
    Stop (under K l) u := by
  rcases stop with empty | member | ⟨a, b, different, ⟨k, hk, first⟩, k', hk', second⟩
  · exact Or.inl (List.append_eq_nil_iff.mp empty).2
  · exact Or.inr (Or.inl member)
  · rw [List.append_assoc] at first second
    obtain ⟨w, rfl⟩ := first
    obtain ⟨w', rfl⟩ := second
    rw [List.append_assoc] at hk hk'
    exact Or.inr (Or.inr ⟨a, b, different, ⟨_, hk, List.prefix_append _ _⟩, _, hk',
      List.prefix_append _ _⟩)

theorem Clash.of_under {r : σ → σ → Prop} {K : Set (List σ)} {l word : List σ}
    (clash : Clash r (under K l) word) :
    Clash r K (l ++ word) := by
  obtain ⟨u, a, b, different, related, goes, ⟨k, hk, other⟩, notStop⟩ := clash
  refine ⟨l ++ u, a, b, different, related, ?_, ⟨l ++ k, hk, ?_⟩,
    fun stop => notStop (stop_under stop)⟩
  · rw [List.append_assoc]; exact (List.prefix_append_right_inj l).mpr goes
  · rw [List.append_assoc]; exact (List.prefix_append_right_inj l).mpr other

theorem stop_append {K : Set (List σ)} {l : List σ} (here : Stop K l) (u : List σ) :
    Stop K (l ++ u) ↔ Stop (under K l) u := by
  constructor
  · exact stop_under
  · rintro (rfl | member | ⟨a, b, different, ⟨k, hk, first⟩, k', hk', second⟩)
    · rwa [List.append_nil]
    · exact Or.inr (Or.inl member)
    · refine Or.inr (Or.inr ⟨a, b, different, ⟨_, hk, ?_⟩, _, hk', ?_⟩)
      · rw [List.append_assoc]; exact (List.prefix_append_right_inj l).mpr first
      · rw [List.append_assoc]; exact (List.prefix_append_right_inj l).mpr second

/-! ### Searching edge by edge -/

theorem passes_edge {K : Set (List σ)} {l word : List σ}
    (edge : ∀ p, 0 < p → p < l.length → ¬Stop K (l.take p)) :
    Passes K l word ↔ word = l := by
  constructor
  · rintro ⟨lengths, agree⟩
    apply List.ext_getElem?
    intro p
    by_cases inside : p < l.length
    · exact agree p inside (Or.inr fun p' above below => edge p' (by omega) below)
    · rw [List.getElem?_eq_none (by omega), List.getElem?_eq_none (by omega)]
  · rintro rfl
    exact passes_refl K _

theorem passes_append {K : Set (List σ)} {l k word : List σ} (nonempty : l ≠ [])
    (edge : ∀ p, 0 < p → p < l.length → ¬Stop K (l.take p)) (here : Stop K l) (goesOn : k ≠ []) :
    Passes K (l ++ k) word ↔ word.head? = l.head? ∧ Passes (under K l) k (word.drop l.length) := by
  have edgeLength := List.length_pos_iff.mpr nonempty
  have restLength := List.length_pos_iff.mpr goesOn
  have below : ∀ p, Compared K (l ++ k) (l.length + p) ↔ Compared (under K l) k p := by
    intro p
    simp only [Compared, List.take_length_add_append, stop_append here, List.length_append]
    refine or_congr Iff.rfl ⟨fun none p' above inside => ?_, fun none p' above inside => ?_⟩
    · rw [← stop_append here, ← List.take_length_add_append]
      exact none (l.length + p') (by omega) (by omega)
    · obtain ⟨p', rfl⟩ : ∃ m, p' = l.length + m := ⟨p' - l.length, by omega⟩
      rw [List.take_length_add_append, stop_append here]
      exact none p' (by omega) (by omega)
  have first : Compared K (l ++ k) 0 := Or.inl (Or.inl rfl)
  constructor
  · rintro ⟨lengths, agree⟩
    rw [List.length_append] at lengths
    refine ⟨?_, by rw [List.length_drop]; omega, fun p inside compared => ?_⟩
    · rw [List.head?_eq_getElem?, agree 0 (by rw [List.length_append]; omega) first,
        List.head?_eq_getElem?, List.getElem?_append_left edgeLength]
    · rw [List.getElem?_drop, agree _ (by rw [List.length_append]; omega) ((below p).mpr compared),
        List.getElem?_append_right (by omega), Nat.add_sub_cancel_left]
  · rintro ⟨head, lengths, agree⟩
    rw [List.length_drop] at lengths
    refine ⟨by rw [List.length_append]; omega, fun p inside compared => ?_⟩
    rw [List.length_append] at inside
    by_cases onEdge : p < l.length
    · have start : p = 0 := by
        by_contra positive
        rcases compared with stop | none
        · rw [List.take_append_of_le_length (by omega)] at stop
          exact edge p (by omega) onEdge stop
        · apply none l.length onEdge (by rw [List.length_append]; omega)
          rwa [List.take_left]
      subst start
      rw [← List.head?_eq_getElem?, head, List.head?_eq_getElem?,
        List.getElem?_append_left edgeLength]
    · obtain ⟨p, rfl⟩ : ∃ m, p = l.length + m := ⟨p - l.length, by omega⟩
      rw [← List.getElem?_drop, agree p (by omega) ((below p).mp compared),
        List.getElem?_append_right (by omega), Nat.add_sub_cancel_left]

theorem not_clash_of_apart {r : σ → σ → Prop} {K : Set (List σ)} {word : List σ}
    (apart : ∀ a ∈ word, ∀ k ∈ K, ∀ b ∈ k, r a b → a = b) : ¬Clash r K word := by
  rintro ⟨u, a, b, different, related, goes, ⟨k, member, other⟩, -⟩
  exact different (apart a (goes.subset (by simp)) k member b (other.subset (by simp)) related)

theorem Passes.head {K : Set (List σ)} {k word : List σ} (passes : Passes K k word) :
    word.head? = k.head? := by
  cases k with
  | nil => rw [List.length_eq_zero_iff.mp passes.1.symm]
  | cons a k =>
    have first := passes.2 0 (Nat.zero_lt_succ _) (Or.inl (Or.inl rfl))
    rwa [List.head?_eq_getElem?, List.head?_eq_getElem?]

/-- A search for `word` chooses an edge by the letter `b`. It looks for an edge at every stop that
it reaches before `word` is over. -/
inductive Probes : Set (List σ) → List σ → σ → Prop where
  | here {K : Set (List σ)} {c : σ} {cs : List σ} : Probes K (c :: cs) c
  | onward {K : Set (List σ)} {c b : σ} {cs edge : List σ} (head : edge.head? = some c)
    (stop : Stop K edge)
      (inner : ∀ p, 0 < p → p < edge.length → ¬Stop K (edge.take p))
      (rest : Probes (under K edge) ((c :: cs).drop edge.length) b) : Probes K (c :: cs) b

theorem Probes.mem {K : Set (List σ)} {word : List σ} {b : σ} (probes : Probes K word b) :
    b ∈ word := by
  induction probes with
  | here => exact List.mem_cons_self
  | onward _ _ _ _ ih => exact List.mem_of_mem_drop ih

/-- Where no member begins like the word, the search ends at the first letter. -/
theorem Probes.eq_head {K : Set (List σ)} {c b : σ} {cs : List σ} (probes : Probes K (c :: cs) b)
    (absent : ∀ k ∈ K, k.head? ≠ some c) : b = c := by
  cases probes with
  | here => rfl
  | @onward _ _ _ _ edge head stop =>
    obtain ⟨back, rfl⟩ := List.head?_eq_some_iff.mp head
    rcases stop with empty | member | ⟨a, _, -, ⟨k, member, ⟨rest, rfl⟩⟩, -⟩
    · cases empty
    · exact absurd head (absent _ member)
    · exact absurd rfl (absent _ member)

/-- No word of the list clashes with those before it. -/
def Unmixed (r : σ → σ → Prop) (words : List (List σ)) : Prop :=
  ∀ before word after, words = before ++ word :: after → ¬Clash r {k | k ∈ before} word

theorem Unmixed.init {r : σ → σ → Prop} {before after : List (List σ)}
    (unmixed : Unmixed r (before ++ after)) :
    Unmixed r before := by
  rintro front word back rfl
  exact unmixed front word (back ++ after) (by simp)

theorem Unmixed.last {r : σ → σ → Prop} {before after : List (List σ)} {word : List σ}
    (unmixed : Unmixed r (before ++ word :: after)) : ¬Clash r {k | k ∈ before} word :=
  unmixed before word after rfl

theorem unmixed_of_apart {r : σ → σ → Prop} {words : List (List σ)}
    (apart : ∀ w ∈ words, ∀ a ∈ w, ∀ v ∈ words, ∀ b ∈ v, r a b → a = b) : Unmixed r words := by
  rintro before word after rfl
  exact not_clash_of_apart fun a ha k member b hb =>
    apart word (by simp) a ha k (List.mem_append_left _ member) b hb

def Unconfused (words : List (List σ)) : Prop :=
  ∀ before word after, words = before ++ word :: after → word ∉ before →
    ∀ k ∈ before, ¬Passes {k | k ∈ before} k word

theorem unconfused_of_head {words : List (List σ)}
    (apart : ∀ k ∈ words, ∀ w ∈ words, k.head? = w.head? → k = w) :
    Unconfused words := by
  rintro before word after rfl new k member passes
  exact new (apart k (List.mem_append_left _ member) word (by simp) passes.head.symm ▸ member)

def Earlier (r : σ → σ → Prop) (K : Set (List σ)) (word : List σ) : Set (List σ) :=
  {k | k ∈ K ∧ List.Lex r k word}

theorem earlier_sorted {r : σ → σ → Prop} [Std.Asymm r] {before after : List (List σ)}
    {word : List σ} (sorted : (before ++ word :: after).Pairwise (List.Lex r)) :
    Earlier r {k | k ∈ before ++ word :: after} word = {k | k ∈ before} := by
  obtain ⟨-, later, apart⟩ := List.pairwise_append.mp sorted
  have larger := (List.pairwise_cons.mp later).1
  ext k
  constructor
  · rintro ⟨member, smaller⟩
    rcases List.mem_append.mp member with here | there
    · exact here
    · rcases List.mem_cons.mp there with rfl | there
      · exact absurd smaller (Std.Asymm.asymm _ _ smaller)
      · exact absurd smaller (Std.Asymm.asymm _ _ (larger k there))
  · intro member
    exact ⟨List.mem_append_left _ member, apart k member word List.mem_cons_self⟩

/-- Words that do not clash with smaller ones are unmixed in the sorted order. -/
theorem unmixed_of_sorted {r s : σ → σ → Prop} [Std.Asymm r] {words : List (List σ)}
    (sorted : words.Pairwise (List.Lex r))
    (noClash : ∀ word ∈ words, ¬Clash s (Earlier r {k | k ∈ words} word) word) :
    Unmixed s words := by
  rintro before word after rfl
  have here := noClash word (by simp)
  rwa [earlier_sorted sorted] at here

end Words
