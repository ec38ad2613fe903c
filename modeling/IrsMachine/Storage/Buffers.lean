import IrsMachine.Storage.Batches
import IrsMachine.Storage.Load
import IrsMachine.Storage.Ratio

/-!
# The buffers of a load

The loader again, with what it asks of the buffers that it reads into. It makes room for one
character of a term, whatever its size; `irs_storage_get_documents` makes room for the size and
a terminating zero.
-/

namespace IrsMachine
open Except

/-- What a load does with its buffers: it reads into one, or gives one to the dictionary as a
term of some size. -/
inductive LoadEvent where
  | read (requested allocated : Nat)
  | term (buffer : Bytes) (termSize : UInt64)
  deriving DecidableEq

/-- A read asks for no more than was allocated, and a term is a string in its buffer. -/
def LoadEvent.Safe : LoadEvent → Prop
  | .read requested allocated => requested ≤ allocated
  | .term buffer termSize => 0 ∈ buffer ∧ irsStrLen buffer = termSize.toNat

def irsMemNew (size : Nat) : Bytes := List.replicate size 0

/-- What is in a buffer after characters were read to its start. Those that have no room in it
are behind it. -/
def readInto (buffer chars : Bytes) : Bytes := chars.take buffer.length ++ buffer.drop chars.length

def appendRecord (dictionary : IrsDictionary TermOffsetValue) (term : Bytes)
    (termSize termOffset : UInt64) :
    Except Fault (IrsDictionary TermOffsetValue) := do
  let (dictionary, _) ← irsDictionaryAppend dictionary term termSize.toUInt32 (.offset termOffset)
  let (dictionary, _) ← irsDictionaryAppend dictionary term termSize.toUInt32 (.term (cString term))
  .ok dictionary

def readTermOffsetsEvents (world : World) : Nat → IrsDictionary TermOffsetValue →
    Option IrsIoChannel →
    List LoadEvent × Except Fault (IrsDictionary TermOffsetValue)
  | 0, _, _ => ([], .error .endless)
  | fuel + 1, dictionary, channel =>
    let sizeRead := irsIoChannelReadChars world channel 8
    if !sizeRead.complete 8 then ([.read 8 8], .ok dictionary)
    else
      let termSize := uint64OfChars sizeRead.chars
      let buffer := irsMemNew 1
      let termRead := irsIoChannelReadChars world sizeRead.channel termSize.toNat
      if !termRead.complete termSize.toNat then ([.read 8 8, .read termSize.toNat buffer.length],
        .ok dictionary)
      else
        let offsetRead := irsIoChannelReadChars world termRead.channel 8
        if !offsetRead.complete 8 then ([.read 8 8, .read termSize.toNat buffer.length, .read 8 8],
          .ok dictionary)
        else
          let term := termRead.chars
          let events := [.read 8 8, .read termSize.toNat buffer.length, .read 8 8,
            .term (readInto buffer term) termSize]
          match appendRecord dictionary term termSize (uint64OfChars offsetRead.chars) with
          | .error fault => (events, .error fault)
          | .ok dictionary =>
            let (rest, result) := readTermOffsetsEvents world fuel dictionary offsetRead.channel
            (events ++ rest, result)

def irsStorageLoadEvents (storage : IrsStorage) (world : World) :
    List LoadEvent × Except Fault (IrsStorageStatus × IrsStorage) :=
  match irsIoNewChannelRead world storage.termOffsetsPath with
  | none => ([], .ok (.ok, storage))
  | some channel =>
    let termsSizeRead := irsIoChannelReadChars world (some channel) 8
    let storage := { storage with termsSize := uint64Overwrite storage.termsSize termsSizeRead.chars
      }
    if !termsSizeRead.complete 8 then ([.read 8 8], .ok (.readError, storage))
    else
      let documentsSizeRead := irsIoChannelReadChars world termsSizeRead.channel 8
      let storage :=
        { storage with
          documentsSize := uint64Overwrite storage.documentsSize documentsSizeRead.chars }
      if !documentsSizeRead.complete 8 then ([.read 8 8, .read 8 8], .ok (.readError, storage))
      else
        let fileSize := ((world.files storage.termOffsetsPath).getD []).length
        let (events, dictionary) :=
          readTermOffsetsEvents world (fileSize + 1) storage.termOffsetDictionary
            documentsSizeRead.channel
        ([.read 8 8, .read 8 8] ++ events,
          do .ok (.ok, { storage with termOffsetDictionary := ← dictionary }))

/-! ### The same run -/

theorem readTermOffsetsEvents_result (world : World) (fuel : Nat)
    (dictionary : IrsDictionary TermOffsetValue) (channel : Option IrsIoChannel) :
    (readTermOffsetsEvents world fuel dictionary channel).2 =
      readTermOffsetsLoop world fuel dictionary channel := by
  induction fuel generalizing dictionary channel with
  | zero => rfl
  | succ fuel ih =>
    unfold readTermOffsetsEvents readTermOffsetsLoop
    dsimp only
    split_ifs
    · rfl
    · rfl
    · rfl
    · have once : ∀ (term : Bytes) (termSize termOffset : UInt64)
          (next : IrsDictionary TermOffsetValue → Except Fault (IrsDictionary TermOffsetValue)), (do
            let first ← irsDictionaryAppend dictionary term termSize.toUInt32 (.offset termOffset)
            let second ← irsDictionaryAppend first.1 term termSize.toUInt32 (.term (cString term))
            next second.1) = appendRecord dictionary term termSize termOffset >>= next := by
        intro term termSize termOffset next
        simp only [appendRecord, bind_assoc, ok_bind]
      refine Eq.trans ?_ (once _ _ _ fun next => readTermOffsetsLoop world fuel next _).symm
      cases appendRecord dictionary _ _ _ with
      | error fault => rfl
      | ok next => exact ih next _

theorem irsStorageLoadEvents_result (storage : IrsStorage) (world : World) :
    (irsStorageLoadEvents storage world).2 = irsStorageLoad storage world := by
  unfold irsStorageLoadEvents irsStorageLoad
  cases irsIoNewChannelRead world storage.termOffsetsPath with
  | none => rfl
  | some channel =>
    dsimp only
    split_ifs
    · rfl
    · rfl
    · rw [readTermOffsetsEvents_result]

/-! ### The buffers of a saved file -/

/-- A buffer of one character is only enough for the empty term. -/
theorem term_safe_iff {chars : Bytes} (noNul : ∀ ch ∈ chars, ch ≠ 0) (termSize : UInt64) :
    (LoadEvent.term (readInto (irsMemNew 1) chars) termSize).Safe ↔ chars = [] ∧ termSize = 0 := by
  cases chars with
  | nil =>
    have nothing : readInto (irsMemNew 1) [] = [0] := rfl
    rw [nothing, LoadEvent.Safe, ← UInt64.toNat_inj]
    simp [irsStrLen, cString, eq_comm]
  | cons ch chars =>
    have first : readInto (irsMemNew 1) (ch :: chars) = [ch] := by simp [readInto, irsMemNew]
    rw [first, LoadEvent.Safe]
    refine iff_of_false (fun safe => ?_) (fun both => List.cons_ne_nil _ _ both.1)
    exact noNul ch List.mem_cons_self (List.mem_singleton.mp safe.1).symm

/-- An empty term goes to the root, where there is always room. -/
theorem appendRecord_nil (dictionary : IrsDictionary TermOffsetValue) (termOffset : UInt64) :
    ∃ dictionary', appendRecord dictionary [] 0 termOffset = .ok dictionary' := by
  unfold appendRecord irsDictionaryAppend irsDictionaryAppendToNode
  simp only [List.take_nil, appendLoop, ok_bind]
  exact ⟨_, rfl⟩

theorem readTermOffsetsEvents_safe_iff {world : World} {path : Path} {file before : Bytes}
    (fuel : Nat) (dictionary : IrsDictionary TermOffsetValue) {pairs : List (UInt64 × Bytes)}
    (contents : world.files path = some file) (split : file = before ++ pairs.flatMap pairRecord)
    (small : file.length ≤ maxFileSize) (enough : pairs.length < fuel) :
    (∀ event ∈ (readTermOffsetsEvents world fuel dictionary
      (some { path, position := before.length })).1, event.Safe) ↔
      ∀ pair ∈ pairs, cString pair.2 = [] := by
  induction pairs generalizing fuel dictionary before with
  | nil =>
    obtain ⟨fuel, rfl⟩ : ∃ n, fuel = n + 1 := ⟨fuel - 1, by rw [List.length_nil] at enough; omega⟩
    rw [List.flatMap_nil, List.append_nil] at split
    subst split
    unfold readTermOffsetsEvents
    simp only [read_ended contents, Bool.not_false, if_true]
    simp [LoadEvent.Safe]
  | cons pair pairs ih =>
    obtain ⟨fuel, rfl⟩ : ∃ n, fuel = n + 1 := ⟨fuel - 1, by omega⟩
    rw [List.length_cons] at enough
    rw [List.flatMap_cons, ← List.append_assoc] at split
    obtain ⟨fits, sizeRead, termRead, offsetRead⟩ :=
      read_pairRecord (split ▸ contents) (split ▸ small)
    unfold readTermOffsetsEvents
    simp only [sizeRead, termRead, offsetRead, complete_eight, length_uint64Chars,
      uint64OfChars_uint64Chars, toNat_record_size fits, ReadChars.complete_normal, Bool.not_true,
      Bool.false_eq_true, if_false]
    rw [List.forall_mem_cons]
    have term := term_safe_iff (cString_noNul pair.2) (UInt64.ofNat (irsStrLen pair.2))
    by_cases empty : cString pair.2 = []
    · have zero : UInt64.ofNat (irsStrLen pair.2) = 0 := by rw [irsStrLen, empty]; rfl
      obtain ⟨dictionary', appended⟩ := appendRecord_nil dictionary pair.1
      have rest := @ih (before ++ pairRecord pair) fuel dictionary' split (by omega)
      have safe := term.mpr ⟨empty, zero⟩
      simp only [empty, zero, appended] at safe ⊢
      rw [← rest]
      have reads : (LoadEvent.read 8 8).Safe ∧
          (LoadEvent.read ([] : Bytes).length (irsMemNew 1).length).Safe :=
        ⟨le_rfl, Nat.zero_le _⟩
      simp only [List.cons_append, List.nil_append, List.forall_mem_cons, reads, safe, true_and]
    · refine iff_of_false (fun safe => ?_) (fun all => empty all.1)
      refine empty (term.mp (safe _ ?_)).1
      cases appendRecord dictionary (cString pair.2) (UInt64.ofNat (irsStrLen pair.2)) pair.1 with
      | error fault => simp
      | ok next => simp

/-- After a save every buffer of the next load is large enough exactly if no term was saved, or
only empty ones. -/
theorem irsStorageLoadEvents_safe_iff {outcomes : Nat → WriteOutcome} {system : System}
    {saved : World} {storage : IrsStorage}
    (save : irsStorageSave outcomes system = .ok (.ok, saved))
    (samePath : storage.termOffsetsPath = system.storage.termOffsetsPath) :
    (∀ event ∈ (irsStorageLoadEvents storage saved).1, event.Safe) ↔
      ∀ pair ∈ savedPairs system.storage.termOffsetDictionary, cString pair.2 = [] := by
  obtain ⟨contents, small⟩ := irsStorageSave_ok save
  rw [← samePath] at contents
  have long := length_savedFile system.storage
  obtain ⟨complete, next, complete', next'⟩ := read_header contents (by omega)
  have records :=
    readTermOffsetsEvents_safe_iff
      ((savedFile system.storage).length + 1) storage.termOffsetDictionary
    contents rfl small (by omega)
  rw [length_savedHeader] at records
  have eight : (LoadEvent.read 8 8).Safe := le_rfl
  unfold irsStorageLoadEvents
  simp only [opened_file contents, complete, complete', next, next', Bool.not_true,
    Bool.false_eq_true, if_false, contents, Option.getD_some]
  rw [← records]
  simp only [List.cons_append, List.nil_append, List.forall_mem_cons, eight, true_and]

theorem irsStorageLoadEvents_safe_iff_empty :
    ∃ saved, irsStorageSave allWritten (freshSystem [] .empty) = .ok (.ok, saved) ∧
      ∀ event ∈ (irsStorageLoadEvents (irsStorageInitialize []) saved).1, event.Safe := by
  have facts : (irsStorageSave allWritten (freshSystem [] .empty) >>= fun save => .ok save.1) =
      .ok .ok := by decide +kernel
  obtain ⟨⟨status, saved⟩, save, facts⟩ := bind_ok.mp facts
  obtain rfl : status = .ok := Except.ok.inj facts
  have pairs : savedPairs (freshSystem [] .empty).storage.termOffsetDictionary = [] := by
    decide +kernel
  exact ⟨saved, save, (irsStorageLoadEvents_safe_iff save rfl).mpr (by simp [pairs])⟩

/-- The term `ab` is read into a buffer of one character. -/
theorem load_overruns_ab :
    ∃ run saved, addBatches Ratio allWritten (freshSystem [] .empty) [[[97, 98]]] = .ok run ∧
      irsStorageSave allWritten run.system = .ok (.ok, saved) ∧
      LoadEvent.read 2 1 ∈ (irsStorageLoadEvents (irsStorageInitialize []) saved).1 ∧
      ¬∀ event ∈ (irsStorageLoadEvents (irsStorageInitialize []) saved).1, event.Safe := by
  have facts : (addBatches Ratio allWritten (freshSystem [] .empty) [[[97, 98]]] >>= fun run =>
      irsStorageSave allWritten run.system >>= fun save =>
        .ok (save.1, (irsStorageLoadEvents (irsStorageInitialize []) save.2).1)) =
      .ok (.ok, [.read 8 8, .read 8 8, .read 8 8, .read 2 1, .read 8 8, .term [97] 2,
        .read 8 8]) := by decide +kernel
  obtain ⟨run, ran, facts⟩ := bind_ok.mp facts
  obtain ⟨⟨status, saved⟩, save, facts⟩ := bind_ok.mp facts
  simp only [Except.ok.injEq, Prod.mk.injEq] at facts
  obtain ⟨rfl, events⟩ := facts
  refine ⟨run, saved, ran, save, by simp [events], fun safe => ?_⟩
  have tooMuch : 2 ≤ 1 := safe (.read 2 1) (by simp [events])
  omega

end IrsMachine
