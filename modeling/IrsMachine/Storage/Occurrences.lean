import IrsMachine.Dictionary.Exact
import IrsMachine.Dictionary.Order
import IrsMachine.Storage.Ratio
import IrsMachine.Storage.Terms

/-!
# Occurrences

`_irs_storage_assign_terms_in_documents` goes through the tokens of the documents in order. The
reverse frequency that it uses at a token is that of the last token that was new: the address
of one variable is stored for all of them. This file says in terms of the documents which
entries that makes.
-/

namespace IrsMachine
open IrsDictionaryNode Except Multimap Words

abbrev Occurrence := (Bytes × UInt64) × Bytes

def occurrences (documentOffsetMap : List (Bytes × UInt64)) : List Occurrence :=
  documentOffsetMap.flatMap fun pair =>
    (irsStorageGetDocumentTerms pair.1).map fun term => (pair, term)

theorem mem_occurrences {documentOffsetMap : List (Bytes × UInt64)} {pair : Bytes × UInt64}
    {term : Bytes} :
    (pair, term) ∈ occurrences documentOffsetMap ↔
      pair ∈ documentOffsetMap ∧ term ∈ irsStorageGetDocumentTerms pair.1 := by
  simp [occurrences]

theorem map_snd_occurrences (documentOffsetMap : List (Bytes × UInt64)) :
    (occurrences documentOffsetMap).map Prod.snd = tokensOf (documentOffsetMap.map Prod.fst) := by
  simp [occurrences, tokensOf, List.map_flatMap, List.flatMap_map, Function.comp_def]

theorem split_mem {documentOffsetMap : List (Bytes × UInt64)} {before after : List Occurrence}
    {pair : Bytes × UInt64} {term : Bytes}
    (split : occurrences documentOffsetMap = before ++ (pair, term) :: after) :
    pair ∈ documentOffsetMap ∧ term ∈ irsStorageGetDocumentTerms pair.1 :=
  mem_occurrences.mp (split ▸ List.mem_append_right before List.mem_cons_self)

/-- What the run has met when it is at an occurrence are tokens of the batch. -/
theorem split_known {documentOffsetMap : List (Bytes × UInt64)} {before after : List Occurrence}
    {pair : Bytes × UInt64} {term : Bytes}
    (split : occurrences documentOffsetMap = before ++ (pair, term) :: after) :
    ∀ other ∈ before.map Prod.snd ++ [term], other ∈ tokensOf (documentOffsetMap.map Prod.fst) := by
  intro other inside
  rw [List.mem_append, List.mem_singleton] at inside
  rw [← map_snd_occurrences, split, List.map_append, List.map_cons, List.mem_append, List.mem_cons]
  exact inside.imp_right Or.inl

def docsWith (documentOffsetMap : List (Bytes × UInt64)) (term : Bytes) : Nat :=
  (irsStorageGetDocumentsWithTerm term documentOffsetMap).length

/-- The last term that was new. -/
def newest (terms : List Bytes) : Option Bytes := terms.eraseDups.getLast?

def Positive (documentOffsetMap : List (Bytes × UInt64)) (terms : List Bytes) : Prop :=
  ∃ term, newest terms = some term ∧ docsWith documentOffsetMap term ≠ documentOffsetMap.length

/-- An entry for the term and the document at the offset is made in the course of these. -/
def Stored (documentOffsetMap : List (Bytes × UInt64)) (done : List Occurrence) (term : Bytes)
    (docOffset : UInt64) : Prop :=
  ∃ before pair after, done = before ++ (pair, term) :: after ∧ pair.2 = docOffset ∧
    Positive documentOffsetMap (before.map Prod.snd ++ [term])

/-- An entry for the term and the document at the offset is due in the course of these: at some
occurrence this holds of it and the terms so far. -/
def EntryDue (due : Occurrence → List Bytes → Prop) (done : List Occurrence) (term : Bytes)
    (docOffset : UInt64) : Prop :=
  ∃ before pair after, done = before ++ (pair, term) :: after ∧ pair.2 = docOffset ∧
    due (pair, term) (before.map Prod.snd ++ [term])

/-- The entries that are made in the course of these, which are listed backwards: one that is due,
unless the offset passes for one with an entry. -/
def EntryMadeBackwards (due : Occurrence → List Bytes → Prop) : List Occurrence → Bytes → UInt64 →
    Prop
  | [], _, _ => False
  | (pair, term) :: before, other, docOffset => EntryMadeBackwards due before other docOffset ∨
    (other = term ∧ docOffset = pair.2 ∧ due (pair, term) (before.reverse.map Prod.snd ++ [term]) ∧
      ∀ made, EntryMadeBackwards due before term made →
        ¬Passes {key | ∃ made', EntryMadeBackwards due before term made' ∧ key = decimal made'}
          (decimal made) (decimal pair.2))

def EntryMade (due : Occurrence → List Bytes → Prop) (done : List Occurrence) : Bytes → UInt64 →
    Prop :=
  EntryMadeBackwards due done.reverse

/-- Entries of the term are found again: the texts of their offsets are not confused, and the
documents with the term are not too long. -/
structure Clear (documentOffsetMap : List (Bytes × UInt64)) (term : Bytes) : Prop where
  unconfused : ∀ before pair after,
    occurrences documentOffsetMap = before ++ (pair, term) :: after →
    ¬Stored documentOffsetMap before term pair.2 →
    ∀ other, Stored documentOffsetMap before term other →
    ¬Passes {key | ∃ docOffset, Stored documentOffsetMap before term docOffset ∧
      key = decimal docOffset}
      (decimal other) (decimal pair.2)
  readable : ∀ pair ∈ documentOffsetMap, term ∈ irsStorageGetDocumentTerms pair.1 →
    pair.1.length ≤ intMax

/-! ### New terms -/

theorem eraseDups_concat_old {terms : List Bytes} {term : Bytes} (old : term ∈ terms) :
    (terms ++ [term]).eraseDups = terms.eraseDups := by
  rw [List.eraseDups_append]
  simp [List.removeAll, old]

theorem eraseDups_concat_new {terms : List Bytes} {term : Bytes} (new : term ∉ terms) :
    (terms ++ [term]).eraseDups = terms.eraseDups ++ [term] := by
  rw [List.eraseDups_append]
  simp [List.removeAll, new, List.eraseDups_cons]

theorem idxOf_concat_new {terms : List Bytes} {term : Bytes} (new : term ∉ terms) :
    (terms ++ [term]).eraseDups.idxOf term = terms.eraseDups.length := by
  have notIn : term ∉ terms.eraseDups := fun member => new (List.mem_eraseDups.mp member)
  rw [eraseDups_concat_new new, List.idxOf_append_of_notMem notIn, List.idxOf_cons_self,
    Nat.add_zero]

theorem idxOf_concat_of_mem {terms : List Bytes} {term other : Bytes} (new : term ∉ terms)
    (member : other ∈ terms) :
    (terms ++ [term]).eraseDups.idxOf other = terms.eraseDups.idxOf other := by
  rw [eraseDups_concat_new new, List.idxOf_append_of_mem (List.mem_eraseDups.mpr member)]

theorem newest_concat_new {terms : List Bytes} {term : Bytes} (new : term ∉ terms) :
    newest (terms ++ [term]) = some term := by
  rw [newest, eraseDups_concat_new new, List.getLast?_concat]

theorem newest_mem {terms : List Bytes} {term : Bytes} (last : newest terms = some term) :
    term ∈ terms :=
  List.mem_eraseDups.mp (List.mem_of_getLast? last)

theorem exists_newest {terms : List Bytes} (goesOn : terms ≠ []) :
    ∃ term, newest terms = some term := by
  obtain ⟨term, member⟩ := List.exists_mem_of_ne_nil terms goesOn
  have : terms.eraseDups ≠ [] := List.ne_nil_of_mem (List.mem_eraseDups.mpr member)
  exact ⟨_, List.getLast?_eq_some_getLast this⟩

theorem entryDue_concat {due : Occurrence → List Bytes → Prop} {done : List Occurrence}
    {pair : Bytes × UInt64} {term other : Bytes} {docOffset : UInt64} :
    EntryDue due (done ++ [(pair, term)]) other docOffset ↔ EntryDue due done other docOffset ∨
      (other = term ∧ docOffset = pair.2 ∧ due (pair, term) (done.map Prod.snd ++ [term])) := by
  constructor
  · rintro ⟨before, pair', after, split, rfl, holds⟩
    rcases List.eq_nil_or_concat after with rfl | ⟨after, last, rfl⟩
    · obtain ⟨rfl, same⟩ := List.append_inj' split rfl
      cases same
      exact Or.inr ⟨rfl, rfl, holds⟩
    · rw [List.concat_eq_append, ← List.cons_append, ← List.append_assoc] at split
      obtain ⟨rfl, -⟩ := List.append_inj' split rfl
      exact Or.inl ⟨before, pair', after, rfl, rfl, holds⟩
  · rintro (⟨before, pair', after, rfl, rfl, holds⟩ | ⟨rfl, rfl, holds⟩)
    · exact ⟨before, pair', after ++ [(pair, term)], by simp, rfl, holds⟩
    · exact ⟨done, pair, [], rfl, rfl, holds⟩

theorem stored_concat {documentOffsetMap : List (Bytes × UInt64)} {done : List Occurrence}
    {pair : Bytes × UInt64} {term other : Bytes} {docOffset : UInt64} :
    Stored documentOffsetMap (done ++ [(pair, term)]) other docOffset ↔
      Stored documentOffsetMap done other docOffset ∨
      (other = term ∧ docOffset = pair.2 ∧
        Positive documentOffsetMap (done.map Prod.snd ++ [term])) :=
  @entryDue_concat (fun _ => Positive documentOffsetMap) done pair term other docOffset

theorem EntryDue.mem_terms {due : Occurrence → List Bytes → Prop} {done : List Occurrence}
    {term : Bytes} {docOffset : UInt64} (made : EntryDue due done term docOffset) :
    term ∈ done.map Prod.snd := by
  obtain ⟨before, pair, after, rfl, -, -⟩ := made
  simp

theorem mem_terms_of_stored {documentOffsetMap : List (Bytes × UInt64)} {done : List Occurrence}
    {term : Bytes} {docOffset : UInt64} (made : Stored documentOffsetMap done term docOffset) :
    term ∈ done.map Prod.snd :=
  @EntryDue.mem_terms (fun _ => Positive documentOffsetMap) done term docOffset made

/-! ### Entries that are made -/

variable {due due' : Occurrence → List Bytes → Prop}

theorem entryMade_concat {done : List Occurrence} {pair : Bytes × UInt64} {term other : Bytes}
    {docOffset : UInt64} :
    EntryMade due (done ++ [(pair, term)]) other docOffset ↔ EntryMade due done other docOffset ∨
      (other = term ∧ docOffset = pair.2 ∧ due (pair, term) (done.map Prod.snd ++ [term]) ∧
        ∀ made, EntryMade due done term made →
          ¬Passes {key | ∃ made', EntryMade due done term made' ∧ key = decimal made'}
            (decimal made) (decimal pair.2)) := by
  unfold EntryMade
  rw [List.reverse_append, List.reverse_singleton, List.singleton_append, EntryMadeBackwards,
    List.reverse_reverse]

theorem EntryMade.entryDue {done : List Occurrence} {term : Bytes} {docOffset : UInt64}
    (made : EntryMade due done term docOffset) :
    EntryDue due done term docOffset := by
  induction done using List.reverseRecOn with
  | nil => exact made.elim
  | append_singleton done occurrence ih =>
    obtain ⟨pair, new⟩ := occurrence
    rw [entryDue_concat]
    rcases entryMade_concat.mp made with old | ⟨same, offset, holds, -⟩
    · exact .inl (ih old)
    · exact .inr ⟨same, offset, holds⟩

theorem entryMade_congr {done : List Occurrence} {term : Bytes}
    (same : ∀ before pair after, done = before ++ (pair, term) :: after →
      (due (pair, term) (before.map Prod.snd ++ [term]) ↔
        due' (pair, term) (before.map Prod.snd ++ [term]))) (docOffset : UInt64) :
    EntryMade due done term docOffset ↔ EntryMade due' done term docOffset := by
  induction done using List.reverseRecOn generalizing docOffset with
  | nil => exact Iff.rfl
  | append_singleton done occurrence ih =>
    obtain ⟨pair, new⟩ := occurrence
    have before := ih fun before pair' after split =>
      same before pair' (after ++ [(pair, new)]) (by rw [split]; simp)
    rw [entryMade_concat, entryMade_concat, before]
    refine or_congr Iff.rfl (and_congr_right ?_)
    rintro rfl
    simp only [before, same done pair [] rfl]

/-- Where no texts are confused, every entry that is due is made. -/
theorem entryMade_iff_stored {documentOffsetMap : List (Bytes × UInt64)} {term : Bytes}
    (clear : Clear documentOffsetMap term) {done rest : List Occurrence}
    (split : occurrences documentOffsetMap = done ++ rest) (docOffset : UInt64) :
    EntryMade (fun _ => Positive documentOffsetMap) done term docOffset ↔
      Stored documentOffsetMap done term docOffset := by
  refine ⟨EntryMade.entryDue, fun stored => ?_⟩
  induction done using List.reverseRecOn generalizing rest docOffset with
  | nil =>
    obtain ⟨before, pair, after, nothing, -, -⟩ := stored
    simp at nothing
  | append_singleton done occurrence ih =>
    obtain ⟨pair, new⟩ := occurrence
    rw [List.append_assoc, List.singleton_append] at split
    rw [entryMade_concat]
    rcases stored_concat.mp stored with old | ⟨rfl, rfl, positive⟩
    · exact .inl (ih split docOffset old)
    · by_cases before : Stored documentOffsetMap done term pair.2
      · exact .inl (ih split pair.2 before)
      · refine .inr ⟨rfl, rfl, positive, fun made entry passes => ?_⟩
        have same : {key | ∃ made', EntryMade (fun _ => Positive documentOffsetMap) done term
          made' ∧ key = decimal made'} =
            {key | ∃ made', Stored documentOffsetMap done term made' ∧ key = decimal made'} := by
          ext key
          exact ⟨fun ⟨made', entry', here⟩ => ⟨made', entry'.entryDue, here⟩,
            fun ⟨made', stored', here⟩ => ⟨made', ih split made' stored', here⟩⟩
        rw [same] at passes
        exact clear.unconfused done pair rest split before made entry.entryDue passes

/-! ### Numbers of documents -/

theorem docsWith_le (documentOffsetMap : List (Bytes × UInt64)) (term : Bytes) :
    docsWith documentOffsetMap term ≤ documentOffsetMap.length := by
  rw [docsWith, irsStorageGetDocumentsWithTerm, List.length_map]
  exact List.length_filter_le _ _

theorem irsStrFind_token {document term : Bytes}
    (member : term ∈ irsStorageGetDocumentTerms document) :
    irsStrFind document term = true := by
  obtain ⟨-, inside⟩ := strtok_part member
  rw [irsStrFind, decide_eq_true_eq, cString_of_noNul fun ch here => cString_noNul document ch
    (inside.subset here)]
  exact inside

theorem docsWith_pos {documentOffsetMap : List (Bytes × UInt64)} {term : Bytes}
    (member : term ∈ tokensOf (documentOffsetMap.map Prod.fst)) :
    0 < docsWith documentOffsetMap term := by
  obtain ⟨document, inMap, member⟩ := List.mem_flatMap.mp member
  obtain ⟨pair, inside, rfl⟩ := List.mem_map.mp inMap
  rw [docsWith, irsStorageGetDocumentsWithTerm, List.length_map]
  exact List.length_pos_of_mem (List.mem_filter.mpr ⟨inside, irsStrFind_token member⟩)

theorem toNat_listSize {β : Type} {list : List β} (few : list.length < 2 ^ 32) :
    (listSize list).toUInt64.toNat = list.length := by
  rw [listSize, UInt32.toNat_toUInt64, UInt32.toNat_ofNat_of_lt' few]

theorem length_splitOnP_le {β : Type} (p : β → Bool) (list : List β) :
    (list.splitOnP p).length ≤ list.length + 1 := by
  induction list with
  | nil => simp
  | cons ch list ih =>
    rw [List.splitOnP_cons_eq_if_modifyHead, List.length_cons]
    split
    · rw [List.length_cons]
      omega
    · rw [List.length_modifyHead]
      omega

theorem length_documentTerms_le (document : Bytes) :
    (irsStorageGetDocumentTerms document).length ≤ document.length + 1 := by
  have strings : (cString document).length ≤ document.length := (List.takeWhile_prefix _).length_le
  exact (List.length_filter_le _ _).trans ((length_splitOnP_le _ _).trans (by omega))

/-! ### Texts of offsets -/

theorem digit_range {number : Nat} {digit : Char} (member : digit ∈ Nat.toDigits 10 number) :
    48 ≤ digit.toNat ∧ digit.toNat ≤ 57 := by
  have isDigit := Nat.isDigit_of_mem_toDigits (by decide) (by decide) member
  rw [Char.isDigit, Bool.and_eq_true, decide_eq_true_eq, decide_eq_true_eq] at isDigit
  exact isDigit

theorem toNat_digit {digit : Char} (high : digit.toNat ≤ 57) :
    (UInt8.ofNat digit.toNat).toNat = digit.toNat :=
  UInt8.toNat_ofNat_of_lt' (Nat.lt_of_le_of_lt high (by decide))

theorem decimal_digit {number : UInt64} {ch : UInt8} (member : ch ∈ decimal number) :
    48 ≤ ch ∧ ch ≤ 57 := by
  obtain ⟨digit, inside, rfl⟩ := List.mem_map.mp member
  obtain ⟨low, high⟩ := digit_range inside
  rw [UInt8.le_iff_toNat_le, UInt8.le_iff_toNat_le, toNat_digit high]
  exact ⟨low, high⟩

theorem decimal_admitted (number : UInt64) : ∀ ch ∈ decimal number, Admitted ch := by
  intro ch member
  obtain ⟨low, high⟩ := decimal_digit member
  constructor <;> rintro rfl <;> revert low high <;> decide

theorem decimal_lower {number : UInt64} {ch : UInt8} (member : ch ∈ decimal number) :
    tolower ch = ch := by
  obtain ⟨low, high⟩ := decimal_digit member
  rw [tolower, if_neg]
  rintro ⟨upper, -⟩
  rw [UInt8.le_iff_toNat_le] at high upper
  exact absurd (upper.trans high) (by decide)

theorem decimal_ne_nil (number : UInt64) : decimal number ≠ [] := by
  rw [decimal, Ne, List.map_eq_nil_iff]
  exact Nat.toDigits_ne_nil

theorem length_decimal (number : UInt64) : (decimal number).length < 2 ^ 32 := by
  rw [decimal, List.length_map]
  have := (Nat.length_toDigits_le_iff (by decide : 1 < 10) (by decide : 0 < 20)).mpr
    (number.toNat_lt.trans (by decide))
  omega

theorem decimal_injective : Function.Injective decimal := by
  intro a b same
  have back : ∀ number : UInt64,
      (decimal number).map (fun ch => Char.ofNat ch.toNat) = Nat.toDigits 10 number.toNat := by
    intro number
    rw [decimal, List.map_map]
    refine (List.map_congr_left fun digit member => ?_).trans (List.map_id _)
    rw [Function.comp_apply, toNat_digit (digit_range member).2, Char.ofNat_toNat, id_eq]
  have digits := congrArg
    (fun text => Nat.ofDigitChars 10 (text.map fun ch => Char.ofNat ch.toNat) 0) same
  simp only [back, Nat.ofDigitChars_ten_toDigits] at digits
  exact UInt64.toNat_inj.mp digits

end IrsMachine
