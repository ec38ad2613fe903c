import IrsMachine.Dictionary.Lookup
import IrsMachine.Dictionary.Outline

/-!
# Exact use

Where no letters are mixed up, the dictionary is the multimap that it is meant to be: values go
to their own key, and a key without values is not found.
-/

namespace IrsMachine
open IrsDictionaryNode Except Multimap Words

variable {α : Type} {ok : UInt8 → Prop}

/-- A lookup that returns finds nothing for a string that passes for no word. -/
theorem get_absent_returned {dictionary : IrsDictionary α} {irsString : Bytes}
    {list : Option (List α)} (kept : Kept ok dictionary) (noNul : ∀ ch, ok ch → ch ≠ 0)
    (stringNoNul : ∀ ch ∈ irsString, ch ≠ 0)
    (avoids : ∀ word ∈ keys irsCharToIrsInt dictionary.root,
      ¬Passes (keys irsCharToIrsInt dictionary.root) word irsString)
    (get : irsDictionaryGet dictionary irsString = .ok list) : list = none := by
  obtain ⟨-, spec⟩ := get_returned kept noNul stringNoNul get
  cases list with
  | none => rfl
  | some values =>
    obtain ⟨-, word, ⟨rfl, present⟩, passes⟩ := (spec values).mp rfl
    exact absurd passes (avoids word present)

theorem get_absent {dictionary : IrsDictionary α} {irsString : Bytes} (kept : Kept ok dictionary)
    (noNul : ∀ ch, ok ch → ch ≠ 0) (bytes : ∀ ch ∈ irsString, Admitted ch)
    (avoids : ∀ word ∈ keys irsCharToIrsInt dictionary.root,
      ¬Passes (keys irsCharToIrsInt dictionary.root) word irsString) :
    irsDictionaryGet dictionary irsString = .ok none := by
  obtain ⟨list, get, -⟩ := get_spec kept noNul bytes
  rw [get, get_absent_returned kept noNul (fun ch member => (bytes ch member).1) avoids get]

theorem FiledUnder.appends {dictionary : IrsDictionary α} {key word : Bytes}
    (filed : FiledUnder dictionary key word) (kept : Kept ok dictionary) (bytes : ∀ ch ∈ key, ok ch)
    (values : List α) :
    ∃ dictionary', values.foldlM (fun dictionary value => appendKey dictionary key value)
      dictionary = .ok dictionary' ∧
      Kept ok dictionary' ∧ ∀ other, contents irsCharToIrsInt dictionary'.root other =
        if other = word then contents irsCharToIrsInt dictionary.root word ++ values
        else contents irsCharToIrsInt dictionary.root other := by
  induction values generalizing dictionary with
  | nil => exact ⟨dictionary, rfl, kept, fun other => by split <;> simp [*]⟩
  | cons value values ih =>
    obtain ⟨middle, step, pushed, filed'⟩ := filed.append kept value
    obtain ⟨last, rest, kept', stored⟩ := ih filed' (kept_appendKey kept bytes step)
    refine ⟨last, foldlM_cons_ok.mpr ⟨middle, step, rest⟩, kept', fun other => ?_⟩
    rw [stored, pushed, ite_push]

/-- Values that are appended to one key one after another. Only the first append can fail. -/
theorem appendKeys_filed {dictionary first : IrsDictionary α} {key : Bytes} {value : α}
    (kept : Kept ok dictionary) (bytes : ∀ ch ∈ key, ok ch)
    (step : appendKey dictionary key value = .ok first) (values : List α) :
    ∃ last, values.foldlM (fun dictionary value => appendKey dictionary key value) first =
      .ok last ∧
      Kept ok last ∧ outline last = outline first ∧
      ∃ word, (¬Clash SameFold (keys irsCharToIrsInt dictionary.root) (readPart key) →
        word = readPart key) ∧
        ∀ other, contents irsCharToIrsInt last.root other =
          if other = word then contents irsCharToIrsInt dictionary.root word ++ value :: values
          else contents irsCharToIrsInt dictionary.root other := by
  obtain ⟨word, pushed, filed, -, exact⟩ := appendKey_filed kept bytes step
  obtain ⟨last, rest, kept', stored⟩ := filed.appends (kept_appendKey kept bytes step) bytes values
  refine ⟨last, rest, kept', outline_appendKeys kept bytes step rest, word, exact, fun other => ?_⟩
  rw [stored, pushed, ite_push]

theorem appendKeys_exact {dictionary : IrsDictionary α} {key : Bytes} {value : α}
    (kept : Kept ok dictionary) (bytes : ∀ ch ∈ key, ok ch) (noNul : ∀ ch, ok ch → ch ≠ 0)
    (short : key.length < 2 ^ 32)
    (noClash : ¬Clash SameFold (keys irsCharToIrsInt dictionary.root) key)
    (returns : ∃ first, appendKey dictionary key value = .ok first) (values : List α) :
    ∃ dictionary', (value :: values).foldlM (fun dictionary value => appendKey dictionary key value)
      dictionary = .ok dictionary' ∧
      Kept ok dictionary' ∧ ∀ other, contents irsCharToIrsInt dictionary'.root other =
        if other = key then contents irsCharToIrsInt dictionary.root key ++ value :: values
        else contents irsCharToIrsInt dictionary.root other := by
  obtain ⟨first, step⟩ := returns
  obtain ⟨last, rest, kept', -, word, exact, stored⟩ := appendKeys_filed kept bytes step values
  have read : readPart key = key :=
    readPart_short (fun ch member => noNul ch (bytes ch member)) short
  rw [read] at exact
  obtain rfl := exact noClash
  exact ⟨last, foldlM_cons_ok.mpr ⟨first, step, rest⟩, kept', stored⟩

end IrsMachine
