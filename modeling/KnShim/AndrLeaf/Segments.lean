import KnShim.AndrLeaf.Headers
import KnShim.Lib.Loop

/-!
# AndrLeaf.Segments — the image of the segments

`Input.segments` are the program headers as numbers.  On them the two loops of `mapSegments` become
`Input.highest` and `Input.overlay`: the size is what the last loadable segment asks for, and the
memory is that of the mapping with the segments laid over each other.  When the segments are sorted
and do not overlap, this is the image that the file describes.
-/

namespace KnShim
namespace AndrLeaf

open Lib Load

variable {cls : ElfClass}

/-- A program header. -/
structure Segment where
  type : Nat
  offset : Nat
  vaddr : Nat
  filesz : Nat
  memsz : Nat
  deriving DecidableEq, Repr

namespace Segment

def isLoad (seg : Segment) : Bool := seg.type = ptLoad

def isDynamic (seg : Segment) : Bool := seg.type = ptDynamic

/-- A header is of one type only. -/
theorem not_isDynamic {seg : Segment} (h : seg.isLoad = true) : ¬ seg.isDynamic = true := by
  have htype : seg.type = ptLoad := of_decide_eq_true h
  rw [isDynamic, decide_eq_true_eq, htype]
  decide

end Segment

namespace Input

variable (input : Input cls)

/-- The program header at an index. -/
def segment (i : Nat) : Segment where
  type := LeafPhdr.pType.value (input.phdr i)
  offset := (LeafPhdr.pOffset cls).value (input.phdr i)
  vaddr := (LeafPhdr.pVaddr cls).value (input.phdr i)
  filesz := (LeafPhdr.pFilesz cls).value (input.phdr i)
  memsz := (LeafPhdr.pMemsz cls).value (input.phdr i)

/-- The program headers. -/
def segments : List Segment := (List.range input.phnum).map input.segment

/-- The loadable segments. -/
def loads : List Segment := input.segments.filter Segment.isLoad

/-- The size of the mapping: where the last loadable segment ends, modulo the address width. -/
def highest : Nat :=
  (lastOf Segment.isLoad (fun seg => (seg.vaddr + seg.memsz) % 2 ^ cls.bits) input.segments).getD 0

/-- Where the dynamic section is. -/
def dyns : Option Nat := lastOf Segment.isDynamic Segment.offset input.segments

/-- The bytes of a segment are in the buffer. -/
def Has (seg : Segment) : Prop := seg.offset + seg.filesz ≤ input.length

instance (seg : Segment) : Decidable (input.Has seg) := inferInstanceAs (Decidable (_ ≤ _))

/-- A segment is laid over the memory at an address, unless the buffer does not have it. -/
def layOver (base : BitVec cls.bits) (memory : Memory cls.bits) (seg : Segment) :
    Memory cls.bits :=
  if seg.isLoad ∧ input.Has seg then
    memory.write (base + BitVec.ofNat _ seg.vaddr) (input.slice seg.offset seg.filesz)
  else
    memory

/-- The segments laid over the memory one after the other. -/
def overlay (base : BitVec cls.bits) (memory : Memory cls.bits) (segs : List Segment) :
    Memory cls.bits :=
  segs.foldl (input.layOver base) memory

end Input

/-! ## The members of the program headers -/

theorem members_stop_le (cls : ElfClass) :
    (LeafPhdr.pOffset cls).stop ≤ (LeafPhdr.pMemsz cls).stop ∧
      (LeafPhdr.pVaddr cls).stop ≤ (LeafPhdr.pMemsz cls).stop ∧
        (LeafPhdr.pFilesz cls).stop ≤ (LeafPhdr.pMemsz cls).stop := by
  cases cls <;> decide

/-- The members are addresses and sizes of the address width. -/
theorem Input.segment_offset_lt (input : Input cls) (i : Nat) :
    (input.segment i).offset < 2 ^ cls.bits := by
  have hlt := (LeafPhdr.pOffset cls).value_lt (input.phdr i)
  cases cls with
  | elf32 => exact hlt
  | elf64 => exact hlt

theorem phdr_of_allSlots {input : Input cls} {leaf : LeafObject cls.bits} {i : Nat}
    (hleaf : leaf.phdrs = some input.allSlots) (hi : i < input.phnum) :
    leaf.phdr i = .ok (input.phdr i) := by
  have hget : input.allSlots[i]? = some (.header (input.phdr i)) := by
    rw [Input.allSlots, List.getElem?_append_left (by simpa using hi), List.getElem?_map,
      List.getElem?_range hi]
    rfl
  simp only [LeafObject.phdr, hleaf, hget]

/-- A header that was read is as long as the file says. -/
theorem HeadersRead.phdr_length {sys : System cls} {input : Input cls} {n i : Nat}
    (h : HeadersRead sys input n) (hi : i < n) : (input.phdr i).length = input.phentsize := by
  have hend : input.phoff + n * input.phentsize ≤ input.length :=
    h.2.resolve_left (Nat.ne_of_gt (Nat.zero_lt_of_lt hi))
  have hmul : (i + 1) * input.phentsize ≤ n * input.phentsize := Nat.mul_le_mul_right _ hi
  rw [Nat.succ_mul] at hmul
  rw [Input.length] at hend
  rw [Input.phdr, Input.slice, List.length_take, List.length_drop]
  omega

/-! ## The size of the mapping -/

/-- The members of a header that the first loop uses are in its block. -/
def SizesIn (input : Input cls) (seg : Segment) : Prop :=
  LeafPhdr.pType.stop ≤ input.phentsize ∧
    (seg.isLoad → (LeafPhdr.pMemsz cls).stop ≤ input.phentsize)

instance (input : Input cls) (seg : Segment) : Decidable (SizesIn input seg) :=
  inferInstanceAs (Decidable (_ ∧ _))

/-- All members that the first loop uses are in their blocks. -/
def AllSizesIn (input : Input cls) : Prop := ∀ seg ∈ input.segments, SizesIn input seg

instance (input : Input cls) : Decidable (AllSizesIn input) :=
  inferInstanceAs (Decidable (∀ seg ∈ input.segments, SizesIn input seg))

section Loops

variable {sys : System cls} {input : Input cls} {leaf : LeafObject cls.bits}

/-- One round of the first loop. -/
theorem nextHighest_eq (hread : HeadersRead sys input input.phnum)
    (hleaf : leaf.phdrs = some input.allSlots) (highest : Nat) {i : Nat} (hi : i < input.phnum) :
    nextHighest leaf highest i =
      if SizesIn input (input.segment i) then
        .ok (if (input.segment i).isLoad then
          ((input.segment i).vaddr + (input.segment i).memsz) % 2 ^ cls.bits else highest)
      else
        .error .outOfBounds := by
  have hlen := hread.phdr_length hi
  have hstops := members_stop_le cls
  rw [nextHighest, phdr_of_allSlots hleaf hi, Fallible.ok_bind]
  by_cases htype : LeafPhdr.pType.stop ≤ input.phentsize
  · rw [Field.read_of_le (by rwa [hlen]), Fallible.ok_bind]
    by_cases hload : LeafPhdr.pType.value (input.phdr i) = ptLoad
    · have hisLoad : (input.segment i).isLoad = true := decide_eq_true hload
      rw [if_pos hload]
      by_cases hmemsz : (LeafPhdr.pMemsz cls).stop ≤ input.phentsize
      · rw [if_pos ⟨htype, fun _ => hmemsz⟩, if_pos hisLoad,
          Field.read_of_le (by rw [hlen]; exact le_trans hstops.2.1 hmemsz), Fallible.ok_bind,
          Field.read_of_le (by rwa [hlen])]
        rfl
      · -- the size is not in the block, whether or not the address is
        rw [if_neg (fun h => hmemsz (h.2 hisLoad))]
        by_cases hvaddr : (LeafPhdr.pVaddr cls).stop ≤ input.phentsize
        · rw [Field.read_of_le (by rwa [hlen]), Fallible.ok_bind,
            Field.read_of_lt (by rw [hlen]; exact Nat.lt_of_not_le hmemsz)]
          rfl
        · rw [Field.read_of_lt (by rw [hlen]; exact Nat.lt_of_not_le hvaddr)]
          rfl
    · have hisLoad : ¬ (input.segment i).isLoad = true := by
        rw [Segment.isLoad, decide_eq_true_eq]
        exact hload
      rw [if_neg hload, if_pos ⟨htype, fun h => absurd h hisLoad⟩, if_neg hisLoad]
      rfl
  · rw [if_neg (fun h => htype h.1),
      Field.read_of_lt (by rw [hlen]; exact Nat.lt_of_not_le htype)]
    rfl

/-- The first loop. -/
theorem findHighest_eq (hread : HeadersRead sys input input.phnum)
    (hleaf : leaf.phdrs = some input.allSlots) :
    (List.range input.phnum).foldlM (nextHighest leaf) 0 =
      if AllSizesIn input then .ok input.highest else .error .outOfBounds := by
  have hloop := foldlM_guard (fun i => SizesIn input (input.segment i))
    (fun highest i => if (input.segment i).isLoad then
      ((input.segment i).vaddr + (input.segment i).memsz) % 2 ^ cls.bits else highest)
    (fun _ => True) (List.range input.phnum)
    (fun highest _ i hi => nextHighest_eq hread hleaf highest (List.mem_range.mp hi))
    (fun _ _ _ _ => trivial) (s := 0) trivial
  have hlast := foldl_assign
    (fun highest seg => if seg.isLoad then (seg.vaddr + seg.memsz) % 2 ^ cls.bits else highest)
    id Segment.isLoad (fun seg => (seg.vaddr + seg.memsz) % 2 ^ cls.bits) (fun _ _ => rfl)
    input.segments 0
  simp only [id] at hlast
  rw [hloop, Input.highest, ← hlast, Input.segments, List.foldl_map]
  simp only [AllSizesIn, Input.segments, List.forall_mem_map]

end Loops

/-! ## The copy loop -/

/-- The copy of a segment stays inside the buffer and the mapping: it is empty, or refused because
the buffer ends too early, or there is room for it. -/
def CopyFits (input : Input cls) (blobLength : Nat) (seg : Segment) : Prop :=
  seg.filesz = 0 ∨
    ¬ input.Has seg ∧ input.length < (seg.offset + seg.filesz) % 2 ^ cls.bits ∨
      input.Has seg ∧ seg.vaddr + seg.filesz ≤ blobLength

/-- What the copy loop does with a header goes well. -/
def CopySafe (input : Input cls) (blobLength : Nat) (seg : Segment) : Prop :=
  (seg.isLoad → CopyFits input blobLength seg) ∧
    (seg.isDynamic → (LeafPhdr.pOffset cls).stop ≤ input.phentsize)

instance (input : Input cls) (blobLength : Nat) (seg : Segment) :
    Decidable (CopyFits input blobLength seg) :=
  inferInstanceAs (Decidable (_ ∨ _))

instance (input : Input cls) (blobLength : Nat) (seg : Segment) :
    Decidable (CopySafe input blobLength seg) :=
  inferInstanceAs (Decidable (_ ∧ _))

/-- All copies stay inside. -/
def AllCopySafe (input : Input cls) : Prop :=
  ∀ seg ∈ input.segments, CopySafe input input.highest seg

instance (input : Input cls) : Decidable (AllCopySafe input) :=
  inferInstanceAs (Decidable (∀ seg ∈ input.segments, CopySafe input input.highest seg))

/-- A round of the copy loop that goes well. -/
def Copying.next (input : Input cls) (base : BitVec cls.bits) (state : Copying cls)
    (seg : Segment) : Copying cls where
  stream :=
    if seg.isLoad then
      ⟨input, if input.Has seg then seg.offset + seg.filesz else seg.offset⟩
    else if seg.isDynamic then
      ⟨input, seg.offset⟩
    else
      state.stream
  memory := input.layOver base state.memory seg
  dyns := if seg.isDynamic then some seg.offset else state.dyns

theorem Input.slice_length {input : Input cls} {start count : Nat}
    (h : start + count ≤ input.length) : (input.slice start count).length = count := by
  rw [Input.length] at h
  rw [Input.slice, List.length_take, List.length_drop]
  omega

/-- A segment that the buffer has needs room. -/
theorem copyFits_of_has {input : Input cls} (blobLength : Nat) {seg : Segment}
    (h : input.Has seg) :
    CopyFits input blobLength seg ↔ seg.filesz = 0 ∨ seg.vaddr + seg.filesz ≤ blobLength := by
  constructor
  · rintro (hzero | ⟨hnot, _⟩ | ⟨_, hle⟩)
    · exact Or.inl hzero
    · exact absurd h hnot
    · exact Or.inr hle
  · rintro (hzero | hle)
    · exact Or.inl hzero
    · exact Or.inr (Or.inr ⟨h, hle⟩)

/-- The read of a segment that the buffer does not have must be refused. -/
theorem copyFits_of_not_has {input : Input cls} (blobLength : Nat) {seg : Segment}
    (hoffset : seg.offset < 2 ^ cls.bits) (h : ¬ input.Has seg) :
    CopyFits input blobLength seg ↔ LeafStream.exceeds ⟨input, seg.offset⟩ seg.filesz := by
  constructor
  · rintro (hzero | ⟨_, hout⟩ | ⟨hhas, _⟩)
    · -- an empty segment does not wrap around
      rw [Input.Has, hzero, Nat.add_zero] at h
      rw [LeafStream.exceeds, hzero, Nat.add_zero, Nat.mod_eq_of_lt hoffset]
      exact Nat.lt_of_not_le h
    · exact hout
    · exact absurd hhas h
  · intro hexceeds
    exact Or.inr (Or.inl ⟨h, hexceeds⟩)

section Loops

variable {sys : System cls} {input : Input cls} {leaf : LeafObject cls.bits}

theorem Input.segment_isLoad_iff (i : Nat) :
    (input.segment i).isLoad = true ↔ LeafPhdr.pType.value (input.phdr i) = ptLoad :=
  decide_eq_true_iff

theorem Input.segment_isDynamic_iff (i : Nat) :
    (input.segment i).isDynamic = true ↔ LeafPhdr.pType.value (input.phdr i) = ptDynamic :=
  decide_eq_true_iff

/-- The read and the copy of a loadable segment. -/
theorem copyData_eq {state : Copying cls} {seg : Segment} (hoffset : seg.offset < 2 ^ cls.bits)
    (hload : seg.isLoad = true) (hnot : ¬ seg.isDynamic = true) :
    (leafStreamReadInto ⟨input, seg.offset⟩ seg.filesz >>= fun (data, stream) =>
      match data with
      | none => (pure { state with stream := stream } : Fallible (Copying cls))
      | some data => do
          return { state with
            stream := stream
            memory := ← copyInto leaf state.memory seg.vaddr data }) =
      if CopyFits input leaf.blobLength seg then .ok (state.next input leaf.blob seg)
      else .error .outOfBounds := by
  rw [leafStreamReadInto_eq]
  by_cases hhas : input.Has seg
  · have hslice : (input.slice seg.offset seg.filesz).length = seg.filesz :=
      Input.slice_length hhas
    have hempty : input.slice seg.offset seg.filesz = [] ↔ seg.filesz = 0 := by
      rw [← List.length_eq_zero_iff, hslice]
    have hfits := copyFits_of_has leaf.blobLength hhas
    rw [if_pos (show _ ≤ _ from hhas)]
    simp only [Fallible.ok_bind, copyInto, hslice, hempty]
    by_cases hroom : seg.filesz = 0 ∨ seg.vaddr + seg.filesz ≤ leaf.blobLength
    · rw [if_pos hroom, if_pos (hfits.mpr hroom)]
      simp [Copying.next, Input.layOver, leafStreamSetpos, hload, hnot, hhas]
    · rw [if_neg hroom, if_neg (mt hfits.mp hroom)]
      rfl
  · -- the result of the read is not looked at
    have hfits := copyFits_of_not_has leaf.blobLength hoffset hhas
    rw [if_neg (show ¬ _ ≤ _ from hhas)]
    by_cases hexceeds : LeafStream.exceeds ⟨input, seg.offset⟩ seg.filesz
    · rw [if_pos hexceeds, if_pos (hfits.mpr hexceeds)]
      simp [Copying.next, Input.layOver, hload, hnot, hhas]
    · rw [if_neg hexceeds, if_neg (mt hfits.mp hexceeds)]
      rfl

section Round

variable {state : Copying cls} {i : Nat} (hread : HeadersRead sys input input.phnum)
  (hleaf : leaf.phdrs = some input.allSlots) (hsizes : AllSizesIn input)
  (hstate : state.stream.input = input) (hi : i < input.phnum)

include hread hleaf hsizes hstate hi

/-- The round for a loadable segment. -/
theorem copySegment_of_load (hload : (input.segment i).isLoad = true)
    (hnot : ¬ (input.segment i).isDynamic = true) :
    copySegment leaf state i =
      if CopyFits input leaf.blobLength (input.segment i) then
        .ok (state.next input leaf.blob (input.segment i))
      else
        .error .outOfBounds := by
  have hlen := hread.phdr_length hi
  have hstops := members_stop_le cls
  have hmem : input.segment i ∈ input.segments :=
    List.mem_map_of_mem (List.mem_range.mpr hi)
  rcases hsizes _ hmem with ⟨htype, hmemsz⟩
  have hend := hmemsz hload
  have hset : ∀ pos, leafStreamSetpos state.stream pos = ⟨input, pos⟩ := by
    intro pos
    rw [leafStreamSetpos, hstate]
  rw [copySegment, phdr_of_allSlots hleaf hi, Fallible.ok_bind,
    Field.read_of_le (by rwa [hlen]), Fallible.ok_bind,
    if_pos ((Input.segment_isLoad_iff i).mp hload),
    Field.read_of_le (by rw [hlen]; exact le_trans hstops.1 hend),
    Field.read_of_le (by rw [hlen]; exact le_trans hstops.2.2 hend),
    Field.read_of_le (by rw [hlen]; exact le_trans hstops.2.1 hend)]
  simp only [Fallible.ok_bind, hset]
  exact copyData_eq (input.segment_offset_lt i) hload hnot

/-- The round for a dynamic section. -/
theorem copySegment_of_dynamic (hdynamic : (input.segment i).isDynamic = true)
    (hnot : ¬ (input.segment i).isLoad = true) :
    copySegment leaf state i =
      if (LeafPhdr.pOffset cls).stop ≤ input.phentsize then
        .ok (state.next input leaf.blob (input.segment i))
      else
        .error .outOfBounds := by
  have hlen := hread.phdr_length hi
  have hmem : input.segment i ∈ input.segments :=
    List.mem_map_of_mem (List.mem_range.mpr hi)
  have htype := (hsizes _ hmem).1
  rw [copySegment, phdr_of_allSlots hleaf hi, Fallible.ok_bind,
    Field.read_of_le (by rwa [hlen]), Fallible.ok_bind,
    if_neg (mt (Input.segment_isLoad_iff i).mpr hnot),
    if_pos ((Input.segment_isDynamic_iff i).mp hdynamic)]
  by_cases hoff : (LeafPhdr.pOffset cls).stop ≤ input.phentsize
  · rw [if_pos hoff, Field.read_of_le (by rwa [hlen])]
    simp only [Fallible.ok_bind, leafStreamSetpos, hstate]
    change Except.ok { state with
      stream := ⟨input, (input.segment i).offset⟩
      dyns := some (input.segment i).offset } = _
    simp [Copying.next, Input.layOver, hdynamic, hnot]
  · rw [if_neg hoff, Field.read_of_lt (by rw [hlen]; exact Nat.lt_of_not_le hoff)]
    rfl

omit hstate in
/-- The round for any other header. -/
theorem copySegment_of_other (hload : ¬ (input.segment i).isLoad = true)
    (hdynamic : ¬ (input.segment i).isDynamic = true) :
    copySegment leaf state i = .ok (state.next input leaf.blob (input.segment i)) := by
  have hlen := hread.phdr_length hi
  have hmem : input.segment i ∈ input.segments :=
    List.mem_map_of_mem (List.mem_range.mpr hi)
  have htype := (hsizes _ hmem).1
  rw [copySegment, phdr_of_allSlots hleaf hi, Fallible.ok_bind,
    Field.read_of_le (by rwa [hlen]), Fallible.ok_bind,
    if_neg (mt (Input.segment_isLoad_iff i).mpr hload),
    if_neg (mt (Input.segment_isDynamic_iff i).mpr hdynamic)]
  simp [Copying.next, Input.layOver, hdynamic, hload]

/-- One round of the copy loop. -/
theorem copySegment_eq :
    copySegment leaf state i =
      if CopySafe input leaf.blobLength (input.segment i) then
        .ok (state.next input leaf.blob (input.segment i))
      else
        .error .outOfBounds := by
  by_cases hload : (input.segment i).isLoad = true
  · have hnot : ¬ (input.segment i).isDynamic = true := Segment.not_isDynamic hload
    have hsafe : CopySafe input leaf.blobLength (input.segment i) ↔
        CopyFits input leaf.blobLength (input.segment i) :=
      ⟨fun h => h.1 hload, fun h => ⟨fun _ => h, fun hdyn => absurd hdyn hnot⟩⟩
    simp only [hsafe]
    exact copySegment_of_load hread hleaf hsizes hstate hi hload hnot
  · by_cases hdynamic : (input.segment i).isDynamic = true
    · have hsafe : CopySafe input leaf.blobLength (input.segment i) ↔
          (LeafPhdr.pOffset cls).stop ≤ input.phentsize :=
        ⟨fun h => h.2 hdynamic, fun h => ⟨fun hload' => absurd hload' hload, fun _ => h⟩⟩
      simp only [hsafe]
      exact copySegment_of_dynamic hread hleaf hsizes hstate hi hdynamic hload
    · rw [if_pos ⟨fun h => absurd h hload, fun h => absurd h hdynamic⟩]
      exact copySegment_of_other hread hleaf hsizes hi hload hdynamic

end Round

/-- The copy loop. -/
theorem copyLoop_eq (hread : HeadersRead sys input input.phnum)
    (hleaf : leaf.phdrs = some input.allSlots) (hlength : leaf.blobLength = input.highest)
    (hsizes : AllSizesIn input) {state : Copying cls} (hstate : state.stream.input = input) :
    (List.range input.phnum).foldlM (copySegment leaf) state =
      if AllCopySafe input then
        .ok (input.segments.foldl (Copying.next input leaf.blob) state)
      else
        .error .outOfBounds := by
  have hnext : ∀ state : Copying cls, state.stream.input = input →
      ∀ i ∈ List.range input.phnum,
        (state.next input leaf.blob (input.segment i)).stream.input = input := by
    intro state hstate i _
    rw [Copying.next]
    split
    · rfl
    · split
      · rfl
      · exact hstate
  have hloop := foldlM_guard (fun i => CopySafe input leaf.blobLength (input.segment i))
    (fun state i => state.next input leaf.blob (input.segment i))
    (fun state : Copying cls => state.stream.input = input) (List.range input.phnum)
    (fun state hstate i hi =>
      copySegment_eq hread hleaf hsizes hstate (List.mem_range.mp hi)) hnext hstate
  rw [hloop, Input.segments, List.foldl_map]
  simp only [AllCopySafe, Input.segments, List.forall_mem_map, hlength]

end Loops

theorem foldl_next_memory (input : Input cls) (base : BitVec cls.bits) (segs : List Segment)
    (state : Copying cls) :
    (segs.foldl (Copying.next input base) state).memory = input.overlay base state.memory segs := by
  induction segs generalizing state with
  | nil => rfl
  | cons seg segs ih => exact ih _

theorem foldl_next_dyns (input : Input cls) (base : BitVec cls.bits) (segs : List Segment)
    {state : Copying cls} (hstate : state.dyns = none) :
    (segs.foldl (Copying.next input base) state).dyns =
      lastOf Segment.isDynamic Segment.offset segs := by
  have hlast := foldl_assign (Copying.next input base) Copying.dyns Segment.isDynamic
    (fun seg => some seg.offset) (fun _ _ => rfl) segs state
  rw [hlast, hstate, lastOf, lastOf]
  cases (segs.filter Segment.isDynamic).getLast? <;> rfl

/-! ## The image -/

/-- The object when its headers are read and its memory is mapped. -/
def Input.mapped (input : Input cls) (leaf : LeafObject cls.bits) (base : BitVec cls.bits) :
    LeafObject cls.bits :=
  { leaf with
    ehdr := some input.ehdr
    phdrs := some input.allSlots
    blob := base
    blobLength := input.highest }

/-- The object with its segments in memory. -/
def Input.image (sys : System cls) (input : Input cls) (leaf : LeafObject cls.bits)
    (base : BitVec cls.bits) : Image cls where
  leaf := input.mapped leaf base
  memory := input.overlay base (sys.memory.zeros base input.highest) input.segments
  dyns := input.dyns

section Exits

variable {sys : System cls} {input : Input cls} (leaf : LeafObject cls.bits)

/-- The ELF header is missing or fails a check. -/
theorem loadSegments_of_not_headerOk (h : ¬ HeaderOk sys input) :
    ∃ error ehdr, loadSegments sys input leaf = fail error { leaf with ehdr := ehdr } := by
  rcases readEhdr_of_not_ok h leaf with ⟨error, ehdr, hfail⟩
  refine ⟨error, ehdr, ?_⟩
  rw [loadSegments, hfail]
  rfl

theorem loadSegments_of_headerOk (h : HeaderOk sys input) :
    loadSegments sys input leaf =
      readPhdrs sys input.ehdr ⟨input, LeafEhdr.size cls⟩ { leaf with ehdr := some input.ehdr } >>=
        fun (phnum, stream, leaf) => mapSegments sys phnum stream leaf := by
  rw [loadSegments, readEhdr_of_ok h]
  rfl

/-- There is no memory for the array of program headers. -/
theorem loadSegments_of_no_array (h : HeaderOk sys input) (hmalloc : sys.mallocPhdrs = false) :
    loadSegments sys input leaf =
      fail "Failed to alloc phdrs array" { leaf with ehdr := some input.ehdr } := by
  rw [loadSegments_of_headerOk leaf h, readPhdrs, hmalloc]
  rfl

/-- A program header is missing. -/
theorem loadSegments_of_not_read (h : HeaderOk sys input) (hmalloc : sys.mallocPhdrs = true)
    (hread : ¬ HeadersRead sys input input.phnum) :
    ∃ k, k < input.phnum ∧ loadSegments sys input leaf =
      if FirstWraps sys input then .error (.fault .outOfBounds)
      else fail "Failed to read a program header"
        { leaf with
          ehdr := some input.ehdr
          phdrs := some (input.slots input.phnum k) } := by
  rcases readPhdrs_of_not_read hmalloc hread (LeafEhdr.size cls)
    { leaf with ehdr := some input.ehdr } with ⟨k, hk, hfail⟩
  refine ⟨k, hk, ?_⟩
  rw [loadSegments_of_headerOk leaf h, hfail]
  split
  · rfl
  · rfl

/-- The headers are read. -/
theorem loadSegments_of_read (h : HeaderOk sys input) (hmalloc : sys.mallocPhdrs = true)
    (hread : HeadersRead sys input input.phnum) :
    loadSegments sys input leaf =
      if AllSizesIn input then
        match sys.mmap input.highest with
        | none => fail sys.strerror (input.mapped leaf (mapFailed _))
        | some base =>
            if AllCopySafe input then
              .ok (input.image sys leaf base)
            else
              .error (.fault .outOfBounds)
      else
        .error (.fault .outOfBounds) := by
  rcases readPhdrs_of_read hmalloc hread (LeafEhdr.size cls)
    { leaf with ehdr := some input.ehdr } with ⟨pos, hok⟩
  rw [loadSegments_of_headerOk leaf h, hok, ok_bind]
  simp only []
  rw [mapSegments, findHighest_eq hread rfl]
  by_cases hsizes : AllSizesIn input
  · rw [if_pos hsizes, if_pos hsizes, attempt_ok, ok_bind]
    cases hmap : sys.mmap input.highest with
    | none => rfl
    | some base =>
        simp only []
        rw [copyLoop_eq hread rfl rfl hsizes rfl]
        by_cases hsafe : AllCopySafe input
        · rw [if_pos hsafe, if_pos hsafe, attempt_ok, ok_bind, foldl_next_memory,
            foldl_next_dyns _ _ _ rfl]
          rfl
        · rw [if_neg hsafe, if_neg hsafe]
          rfl
  · rw [if_neg hsizes, if_neg hsizes]
    rfl

/-- The segments are copied. -/
theorem loadSegments_of_safe (h : HeaderOk sys input) (hmalloc : sys.mallocPhdrs = true)
    (hread : HeadersRead sys input input.phnum)
    (hsizes : AllSizesIn input) {base : BitVec cls.bits}
    (hmap : sys.mmap input.highest = some base) (hsafe : AllCopySafe input) :
    loadSegments sys input leaf = .ok (input.image sys leaf base) := by
  rw [loadSegments_of_read leaf h hmalloc hread, if_pos hsizes, hmap]
  exact if_pos hsafe

end Exits

end AndrLeaf
end KnShim
