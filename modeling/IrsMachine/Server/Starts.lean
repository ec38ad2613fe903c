import IrsMachine.Engine.Directories
import Mathlib.Data.List.Pairwise

/-!
# Starts

`irs_memory_initialize` looks for three directories. Each that is missing is made, but taken for a
failure, and ends the start; so a machine comes up after as many starts as directories were missing
(`starts_whole`). What the function returns is no help.
-/

namespace IrsMachine
open Except

/-- `irs_storage_initialize`. Without `IRS_STORAGE_OK` there is no storage. -/
def irsStorageInitializeAt (fs : FsNode) (path : Bytes) :
    (IrsStorageStatus × Option IrsStorage) × FsNode :=
  match findOrMakeDirectory fs path with
  | (false, fs) => ((.wrongPath, none), fs)
  | (true, fs) => ((.ok, some (irsStorageInitialize path)), fs)

/-- `irs_memory`, with pointers that may be null. -/
structure IrsMemoryData where
  storage : Option IrsStorage
  engine : Option IrsEngine

/-- The status of the engine is taken for a truth value, and `IRS_ENGINE_OK` is zero. -/
def irsMemoryInitialize (fs : FsNode) (path langKeyWordsPath langAlphaPath : Bytes) :
    Except Fault ((Bool × IrsMemoryData) × FsNode) :=
  match irsStorageInitializeAt fs path with
  | ((.ok, storage), fs) => do
    let ((status, engine), fs) ← irsEngineInitialize fs langKeyWordsPath langAlphaPath
    .ok ((decide (status ≠ .ok), { storage, engine }), fs)
  | ((_, storage), fs) => .ok ((false, { storage, engine := none }), fs)

def starts (path langKeyWordsPath langAlphaPath : Bytes) : Nat → FsNode →
    Except Fault (List (Bool × IrsMemoryData) × FsNode)
  | 0, fs => .ok ([], fs)
  | n + 1, fs => do
    let (start, fs) ← irsMemoryInitialize fs path langKeyWordsPath langAlphaPath
    let (later, fs) ← starts path langKeyWordsPath langAlphaPath n fs
    .ok (start :: later, fs)

/-! ### One start -/

variable {fs after : FsNode} {path langKeyWordsPath langAlphaPath : Bytes}

def IrsMemoryData.whole (data : IrsMemoryData) : Bool := data.storage.isSome && data.engine.isSome

/-- Directories are made, and a missing one of these is among them. -/
def Makes (fs after : FsNode) (paths : List Bytes) : Prop :=
  Grown fs after ∧ ∃ path ∈ paths, Missing fs path ∧ ¬Missing after path

theorem irsEngineInitialize_cases {status : IrsEngineStatus} {engine : Option IrsEngine}
    (run : irsEngineInitialize fs langKeyWordsPath langAlphaPath = .ok ((status, engine), after)) :
    (status = .ok ∧ engine.isSome ∧ after = fs ∧
      ∀ path ∈ [langKeyWordsPath, langAlphaPath], ¬Missing fs path) ∨
      (status ≠ .ok ∧ engine = none ∧ Makes fs after [langKeyWordsPath, langAlphaPath]) := by
  unfold irsEngineInitialize at run
  obtain ⟨there, same⟩ | ⟨missing, made, same, here, grown⟩ :=
    findOrMakeDirectory_cases fs langKeyWordsPath
  · rw [same] at run
    obtain ⟨there', same⟩ | ⟨missing, made, same, here, grown⟩ :=
      findOrMakeDirectory_cases fs langAlphaPath
    · simp only [same] at run
      obtain ⟨langKeyWords, -, run⟩ := bind_ok.mp run
      obtain ⟨langAlphabets, -, run⟩ := bind_ok.mp run
      cases run
      refine .inl ⟨rfl, rfl, rfl, ?_⟩
      simp only [List.forall_mem_cons]
      exact ⟨there, there', nofun⟩
    · simp only [same] at run
      cases run
      exact .inr ⟨nofun, rfl, grown, langAlphaPath, by simp, missing,
        fun again => Bool.eq_false_iff.mp again.2 here⟩
  · simp only [same] at run
    cases run
    exact .inr ⟨nofun, rfl, grown, langKeyWordsPath, by simp, missing,
      fun again => Bool.eq_false_iff.mp again.2 here⟩

/-- A start that is not whole makes a missing directory. -/
theorem irsMemoryInitialize_cases {start : Bool × IrsMemoryData}
    (run : irsMemoryInitialize fs path langKeyWordsPath langAlphaPath = .ok (start, after)) :
    (start.1 = true ↔ start.2.storage.isSome ∧ start.2.engine = none) ∧
      ((start.2.whole = true ∧ after = fs ∧ ∀ path' ∈ [path, langKeyWordsPath, langAlphaPath],
        ¬Missing fs path') ∨
        (start.2.whole = false ∧ Makes fs after [path, langKeyWordsPath, langAlphaPath])) := by
  unfold irsMemoryInitialize irsStorageInitializeAt at run
  obtain ⟨there, same⟩ | ⟨missing, made, same, here, grown⟩ := findOrMakeDirectory_cases fs path
  · simp only [same] at run
    obtain ⟨⟨⟨status, engine⟩, after'⟩, init, run⟩ := bind_ok.mp run
    cases run
    obtain ⟨rfl, made, rfl, others⟩ | ⟨failed, rfl, grown, path', member, makes⟩ :=
      irsEngineInitialize_cases init
    · refine ⟨iff_of_false nofun fun both => ?_,
        .inl ⟨made, rfl, List.forall_mem_cons.mpr ⟨there, others⟩⟩⟩
      have absent : engine = none := both.2
      rw [absent] at made
      cases made
    · refine ⟨iff_of_true (decide_eq_true failed) ⟨rfl, rfl⟩,
        .inr ⟨rfl, grown, path', List.mem_cons_of_mem _ member, makes⟩⟩
  · simp only [same] at run
    cases run
    refine ⟨iff_of_false nofun fun both => ?_,
      .inr ⟨rfl, grown, path, by simp, missing, fun again => Bool.eq_false_iff.mp again.2 here⟩⟩
    cases both.1

/-! ### All starts -/

open Classical in
noncomputable def missingCount (fs : FsNode) (paths : List Bytes) : Nat :=
  paths.countP fun path => decide (Missing fs path)

theorem Grown.missingCount_le (grown : Grown fs after) (paths : List Bytes) :
    missingCount after paths ≤ missingCount fs paths := by
  apply List.countP_mono_left
  intro path _ still
  simp only [decide_eq_true_eq] at still ⊢
  exact grown.missing still

theorem Makes.missingCount_lt {paths : List Bytes} (makes : Makes fs after paths) :
    missingCount after paths < missingCount fs paths := by
  obtain ⟨grown, path, member, before, gone⟩ := makes
  obtain ⟨front, back, rfl⟩ := List.append_of_mem member
  have one := grown.missingCount_le front
  have two := grown.missingCount_le back
  unfold missingCount at one two ⊢
  rw [List.countP_append, List.countP_append, List.countP_cons_of_neg (by simpa using gone),
    List.countP_cons_of_pos (by simpa using before)]
  omega

theorem missingCount_eq_zero {paths : List Bytes} (there : ∀ path ∈ paths, ¬Missing fs path) :
    missingCount fs paths = 0 :=
  List.countP_eq_zero.mpr fun path member => by simpa using there path member

/-- A start that is whole stays so. Before it there are no more starts than directories were
missing. A start returns true when it has a storage but no engine. -/
theorem starts_whole {n : Nat} {started : List (Bool × IrsMemoryData)}
    (run : starts path langKeyWordsPath langAlphaPath n fs = .ok (started, after)) :
    started.length = n ∧ (started.countP fun start => !start.2.whole) ≤ missingCount fs
      [path, langKeyWordsPath, langAlphaPath] ∧
      (started.Pairwise fun start later => start.2.whole = true → later.2.whole = true) ∧
      ∀ start ∈ started, (start.1 = true ↔ start.2.storage.isSome ∧ start.2.engine = none) := by
  induction n generalizing fs started with
  | zero =>
    cases run
    exact ⟨rfl, Nat.zero_le _, .nil, nofun⟩
  | succ n ih =>
    obtain ⟨⟨start, middle⟩, first, run⟩ := bind_ok.mp run
    obtain ⟨⟨later, last⟩, rest, run⟩ := bind_ok.mp run
    cases run
    obtain ⟨length, few, ordered, returned⟩ := ih rest
    obtain ⟨value, whole⟩ := irsMemoryInitialize_cases first
    refine ⟨by rw [List.length_cons, length], ?_,
      List.pairwise_cons.mpr ⟨fun other member isWhole => ?_, ordered⟩,
      List.forall_mem_cons.mpr ⟨value, returned⟩⟩
    · obtain ⟨isWhole, rfl, -⟩ | ⟨notWhole, makes⟩ := whole
      · rw [List.countP_cons_of_neg (by simp [isWhole])]
        exact few
      · have fewer := makes.missingCount_lt
        rw [List.countP_cons_of_pos (by simp [notWhole])]
        omega
    · obtain ⟨-, rfl, there⟩ | ⟨notWhole, -⟩ := whole
      · rw [missingCount_eq_zero there, Nat.le_zero, List.countP_eq_zero] at few
        simpa using few other member
      · rw [isWhole] at notWhole
        cases notWhole

theorem starts_whole_four :
    ∃ started after, starts (irsChars "db") (irsChars "w") (irsChars "l") 4 (.branch []) =
      .ok (started, after) ∧ started.length = 4 ∧
      (started.countP fun start => !start.2.whole) ≤ missingCount (.branch [])
        [irsChars "db", irsChars "w", irsChars "l"] ∧
      (started.Pairwise fun start later => start.2.whole = true → later.2.whole = true) ∧
      ∀ start ∈ started, (start.1 = true ↔ start.2.storage.isSome ∧ start.2.engine = none) := by
  obtain ⟨started, after, run⟩ : ∃ started after,
    starts (irsChars "db") (irsChars "w") (irsChars "l") 4 (.branch []) = .ok (started, after) :=
    ⟨_, _, rfl⟩
  exact ⟨started, after, run, starts_whole run⟩

/-- Where nothing is there, the fourth start is the first one that is whole. -/
example : (starts (irsChars "db") (irsChars "w") (irsChars "l") 4 (.branch [])).map
    (fun result => result.1.map fun start => (start.1, start.2.whole)) =
    .ok [(false, false), (true, false), (true, false), (false, true)] := by
  rfl

end IrsMachine
