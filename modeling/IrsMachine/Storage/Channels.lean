import IrsMachine.Storage.Io

/-!
# Writing to the end and reading back

A channel opened for writing stays at the end of its file, so the complete writes make the
file, one after another. What stands in a file at an offset is what a read there gives.
-/

namespace IrsMachine

/-! ### Writing -/

structure AtEnd (channel : IrsIoChannel) (world : World) (written : Bytes) : Prop where
  contents : world.files channel.path = some written
  position : channel.position = written.length
  small : written.length ≤ maxFileSize

theorem atEnd_open (world : World) (path : Path) :
    AtEnd (irsIoNewChannelWrite world path).1 (irsIoNewChannelWrite world path).2 [] :=
  ⟨Function.update_self .., rfl, Nat.zero_le _⟩

theorem open_other (world : World) {path other : Path} (different : other ≠ path) :
    (irsIoNewChannelWrite world path).2.files other = world.files other :=
  Function.update_of_ne different ..

theorem overwrite_end (written chars : Bytes) :
    overwrite written written.length chars = written ++ chars := by
  rw [overwrite, List.take_length, List.drop_of_length_le (by omega), List.append_nil]

theorem write_other (outcomes : Nat → WriteOutcome) (world : World) (channel : IrsIoChannel)
    (chars : Bytes) {other : Path} (different : other ≠ channel.path) :
    (irsIoChannelWriteChars outcomes world channel chars).world.files other =
      world.files other := by
  unfold irsIoChannelWriteChars
  split
  · rfl
  · exact Function.update_of_ne different ..

theorem write_path (outcomes : Nat → WriteOutcome) (world : World) (channel : IrsIoChannel)
    (chars : Bytes) :
    (irsIoChannelWriteChars outcomes world channel chars).channel.path = channel.path := by
  unfold irsIoChannelWriteChars
  split <;> rfl

theorem write_complete {outcomes : Nat → WriteOutcome} {world : World} {channel : IrsIoChannel}
    {written chars : Bytes} (atEnd : AtEnd channel world written)
    (complete : (irsIoChannelWriteChars outcomes world channel chars).complete chars.length =
      true) :
    (irsIoChannelWriteChars outcomes world channel chars).writtenBytes = chars.length ∧
      AtEnd (irsIoChannelWriteChars outcomes world channel chars).channel
        (irsIoChannelWriteChars outcomes world channel chars).world (written ++ chars) := by
  simp only [Written.complete, decide_eq_true_eq] at complete
  refine ⟨complete.2, ?_⟩
  rw [irsIoChannelWriteChars] at complete ⊢
  by_cases nothing : chars = []
  · rw [if_pos nothing, nothing, List.append_nil]
    exact atEnd
  · rw [if_neg nothing] at complete ⊢
    obtain ⟨-, all⟩ := complete
    simp only [atEnd.position] at all
    refine ⟨?_, ?_, ?_⟩
    · simp only [atEnd.contents, atEnd.position, all, Option.getD_some, List.take_length,
        overwrite_end, Function.update_self]
    · simp only [atEnd.position, all, List.length_append]
    · have := atEnd.small
      rw [List.length_append]
      omega

theorem write_part {outcomes : Nat → WriteOutcome} {world : World} {channel : IrsIoChannel}
    {written : Bytes} (chars : Bytes) (atEnd : AtEnd channel world written) :
    ∃ part, part <+: chars ∧
      (irsIoChannelWriteChars outcomes world channel chars).world.files channel.path =
        some (written ++ part) := by
  unfold irsIoChannelWriteChars
  split
  · exact ⟨[], List.nil_prefix, by rw [List.append_nil, atEnd.contents]⟩
  · refine ⟨chars.take
      (min (outcomes world.writes).written (min chars.length (maxFileSize - channel.position))),
      List.take_prefix _ _, ?_⟩
    simp only [atEnd.contents, atEnd.position, Option.getD_some, overwrite_end,
      Function.update_self]

/-! ### Reading -/

def HoldsAt (world : World) (path : Path) (offset : Nat) (chars : Bytes) : Prop :=
  chars <+: ((world.files path).getD []).drop offset

theorem holdsAt_of_append {world : World} {path : Path} {before chars after : Bytes}
    (contents : world.files path = some (before ++ chars ++ after)) :
    HoldsAt world path before.length chars := by
  rw [HoldsAt, contents, Option.getD_some, List.append_assoc, List.drop_left]
  exact List.prefix_append _ _

theorem HoldsAt.left {world : World} {path : Path} {offset : Nat} {chars more : Bytes}
    (holds : HoldsAt world path offset (chars ++ more)) : HoldsAt world path offset chars :=
  (List.prefix_append _ _).trans holds

theorem HoldsAt.right {world : World} {path : Path} {offset : Nat} {chars more : Bytes}
    (holds : HoldsAt world path offset (chars ++ more)) :
    HoldsAt world path (offset + chars.length) more := by
  obtain ⟨after, same⟩ := holds
  rw [HoldsAt, ← List.drop_drop, ← same, List.append_assoc, List.drop_left]
  exact List.prefix_append _ _

theorem HoldsAt.fits {world : World} {path : Path} {offset : Nat} {chars : Bytes}
    (holds : HoldsAt world path offset chars) (goesOn : chars ≠ []) :
    offset + chars.length ≤ ((world.files path).getD []).length := by
  have short := holds.length_le
  have := List.length_pos_iff.mpr goesOn
  rw [List.length_drop] at short
  omega

theorem read_holds {world : World} {path : Path} {offset : Nat} {chars : Bytes}
    (holds : HoldsAt world path offset chars) :
    irsIoChannelReadChars world (some { path, position := offset }) chars.length =
      { status := .normal, chars, channel := some { path, position := offset + chars.length }
        } := by
  unfold irsIoChannelReadChars
  by_cases nothing : chars = []
  · simp [nothing]
  · have count : chars.length ≠ 0 := fun zero => nothing (List.length_eq_zero_iff.mp zero)
    obtain ⟨after, same⟩ := holds
    simp only [← same, List.take_left, nothing, if_neg count, if_false]

theorem ReadChars.complete_normal (chars : Bytes) (channel : Option IrsIoChannel) :
    ReadChars.complete { status := .normal, chars, channel } chars.length = true := by
  simp [ReadChars.complete]

theorem complete_eight {chars : Bytes} {channel : Option IrsIoChannel} (eight : chars.length = 8) :
    ReadChars.complete { status := .normal, chars, channel } 8 = true :=
  eight ▸ ReadChars.complete_normal chars channel

theorem read_complete {world : World} {channel : Option IrsIoChannel} {count : Nat}
    (complete : (irsIoChannelReadChars world channel count).complete count = true) :
    ∃ path position, channel = some { path, position } ∧
      (irsIoChannelReadChars world channel count).chars.length = count ∧
      HoldsAt world path position (irsIoChannelReadChars world channel count).chars ∧
      (irsIoChannelReadChars world channel count).channel =
        some { path, position := position + count } := by
  simp only [ReadChars.complete, decide_eq_true_eq] at complete
  cases channel with
  | none => simp [irsIoChannelReadChars] at complete
  | some channel =>
    refine ⟨channel.path, channel.position, rfl, complete.2, ?_, ?_⟩
    · simp only [irsIoChannelReadChars]
      split
      · exact List.nil_prefix
      · exact List.take_prefix _ _
    · have lengths := complete.2
      simp only [irsIoChannelReadChars] at lengths ⊢
      by_cases zero : count = 0
      · simp [zero]
      · rw [if_neg zero] at lengths ⊢
        simp only at lengths ⊢
        rw [lengths]

end IrsMachine
