import KnShim.AndrLeaf.Segments
import KnShim.Lib.WriteLog
import Mathlib.Order.Bounds.Basic

/-!
# AndrLeaf.Image — the image that a well-formed file describes

The mapping is sized by the last loadable segment.  For loadable segments that are sorted by address
and do not overlap this is the largest end, unless the last one is empty and inside another:
`loadSegments_image_iff` says that the loader makes the right image exactly when `EndsLast` holds.
-/

namespace KnShim
namespace AndrLeaf

open Lib Load Memory

variable {cls : ElfClass}

namespace Input

variable (input : Input cls)

/-- The writes of the copy loop. -/
def copies (base : BitVec cls.bits) (segs : List Segment) : List (BitVec cls.bits × Bytes) :=
  (segs.filter fun seg => seg.isLoad ∧ input.Has seg).map fun seg =>
    (base + BitVec.ofNat _ seg.vaddr, input.slice seg.offset seg.filesz)

end Input

theorem overlay_eq_writeAll (input : Input cls) (base : BitVec cls.bits)
    (memory : Memory cls.bits) (segs : List Segment) :
    input.overlay base memory segs = memory.writeAll (input.copies base segs) := by
  induction segs generalizing memory with
  | nil => rfl
  | cons seg segs ih =>
      rw [Input.overlay, List.foldl_cons]
      change input.overlay base _ segs = _
      rw [ih, Input.layOver, Input.copies, Input.copies, List.filter_cons]
      by_cases hcopied : seg.isLoad ∧ input.Has seg
      · rw [if_pos hcopied, if_pos (decide_eq_true hcopied)]
        rfl
      · rw [if_neg hcopied, if_neg (fun h => hcopied (of_decide_eq_true h))]

/-! ## Well-formed files -/

/-- The offset of the blob is in the segment. -/
def Segment.Spans (seg : Segment) (v : Nat) : Prop := seg.vaddr ≤ v ∧ v < seg.vaddr + seg.memsz

/-- The program headers of a well-formed file; headers that are not loadable may stand between
loadable ones. -/
structure WellFormed (input : Input cls) : Prop where
  phentsize : input.phentsize = LeafPhdr.size cls
  ascending : input.loads.Pairwise fun a b => a.vaddr < b.vaddr
  nonOverlapping : input.loads.Pairwise fun a b => ∀ v, ¬ (a.Spans v ∧ b.Spans v)
  filesz_le : ∀ seg ∈ input.loads, seg.filesz ≤ seg.memsz
  no_wrap : ∀ seg ∈ input.loads, seg.vaddr + seg.memsz < 2 ^ cls.bits
  has : ∀ seg ∈ input.loads, seg.offset + seg.filesz ≤ input.length

/-- The largest end of a loadable segment. -/
def IsHighest (input : Input cls) (high : Nat) : Prop :=
  IsGreatest {stop | ∃ seg ∈ input.loads, stop = seg.vaddr + seg.memsz} high

/-- No loadable segment ends behind the last one. -/
def EndsLast (input : Input cls) : Prop :=
  ∀ last, input.loads.getLast? = some last →
    ∀ seg ∈ input.loads, seg.vaddr + seg.memsz ≤ last.vaddr + last.memsz

/-- The offset of the blob is in the part of a segment that the file has. -/
def Segment.Backs (seg : Segment) (v : Nat) : Prop := seg.vaddr ≤ v ∧ v < seg.vaddr + seg.filesz

section

variable {input : Input cls} {high : Nat}

/-- Each loadable segment ends before the next ones begin, empty ones apart. -/
theorem WellFormed.sorted (h : WellFormed input) :
    input.loads.Pairwise fun a b => 0 < b.memsz → a.vaddr + a.memsz ≤ b.vaddr := by
  apply (h.ascending.and h.nonOverlapping).imp
  rintro a b ⟨hlt, hdisjoint⟩ hpos
  by_contra hle
  exact hdisjoint b.vaddr ⟨⟨hlt.le, by omega⟩, ⟨le_refl _, by omega⟩⟩

/-- The last loadable segment, behind all others. -/
theorem exists_last (hhigh : IsHighest input high) :
    ∃ front last, input.loads = front ++ [last] := by
  rcases hhigh.1 with ⟨top, htop, _⟩
  exact ⟨_, _, (List.dropLast_append_getLast (List.ne_nil_of_mem htop)).symm⟩

/-- When the last loadable segment is not empty, no other one ends behind it. -/
theorem WellFormed.endsLast (h : WellFormed input)
    (hpos : ∀ last, input.loads.getLast? = some last → 0 < last.memsz) : EndsLast input := by
  intro last hlast seg hseg
  have hne : input.loads ≠ [] := List.ne_nil_of_mem hseg
  have hsplit := List.dropLast_append_getLast? last hlast
  have hsorted := h.sorted
  rw [← hsplit, List.pairwise_append] at hsorted
  rw [← hsplit, List.mem_append, List.mem_singleton] at hseg
  rcases hseg with hbefore | rfl
  · have hle := hsorted.2.2 seg hbefore _ (List.mem_singleton_self _) (hpos last hlast)
    omega
  · exact le_refl _

/-- The mapping has the right size exactly when no segment ends behind the last one. -/
theorem WellFormed.highest_eq_iff (h : WellFormed input) (hhigh : IsHighest input high) :
    input.highest = high ↔ EndsLast input := by
  rcases exists_last hhigh with ⟨front, last, hloads⟩
  have hlast : input.loads.getLast? = some last := by rw [hloads, List.getLast?_concat]
  have hmem : last ∈ input.loads := List.mem_of_getLast? hlast
  have hvalue : input.highest = last.vaddr + last.memsz := by
    rw [Input.highest, lastOf]
    change ((input.loads.getLast?).map _).getD 0 = _
    rw [hlast]
    exact Nat.mod_eq_of_lt (h.no_wrap last hmem)
  rw [hvalue]
  constructor
  · rintro rfl last' hlast' seg hseg
    rw [hlast] at hlast'
    cases hlast'
    exact hhigh.2 ⟨seg, hseg, rfl⟩
  · intro hends
    rcases hhigh.1 with ⟨top, htop, htopEnd⟩
    have hle := hends last hlast top htop
    have hbound := hhigh.2 ⟨last, hmem, rfl⟩
    omega

theorem WellFormed.sizesIn (h : WellFormed input) (seg : Segment) : SizesIn input seg := by
  rw [SizesIn, h.phentsize]
  cases cls with
  | elf32 => exact ⟨by decide, fun _ => by decide⟩
  | elf64 => exact ⟨by decide, fun _ => by decide⟩

theorem WellFormed.copySafe (h : WellFormed input) (hhigh : IsHighest input high) {seg : Segment}
    (hseg : seg ∈ input.segments) : CopySafe input high seg := by
  constructor
  · intro hload
    have hmem : seg ∈ input.loads := List.mem_filter.mpr ⟨hseg, hload⟩
    have hend : seg.vaddr + seg.memsz ≤ high := hhigh.2 ⟨seg, hmem, rfl⟩
    have hfilesz := h.filesz_le seg hmem
    exact Or.inr (Or.inr ⟨h.has seg hmem, by omega⟩)
  · intro _
    rw [h.phentsize]
    cases cls with
    | elf32 => decide
    | elf64 => decide

/-! ## The bytes of the image -/

/-- All loadable segments are copied. -/
theorem WellFormed.copies_eq (h : WellFormed input) (base : BitVec cls.bits) :
    input.copies base input.segments = input.loads.map fun seg =>
      (base + BitVec.ofNat _ seg.vaddr, input.slice seg.offset seg.filesz) := by
  have hfilter : (input.segments.filter fun seg => seg.isLoad ∧ input.Has seg) = input.loads := by
    apply List.filter_congr
    intro seg hseg
    by_cases hload : seg.isLoad = true
    · have hhas : input.Has seg := h.has seg (List.mem_filter.mpr ⟨hseg, hload⟩)
      simp [hload, hhas]
    · simp [hload]
  rw [Input.copies, hfilter]

/-- The copy of a segment covers the offsets that the file backs. -/
theorem WellFormed.covers_iff (h : WellFormed input) (hhigh : IsHighest input high)
    (base : BitVec cls.bits) {seg : Segment} (hseg : seg ∈ input.loads) {v : Nat} (hv : v < high) :
    Covers (base + BitVec.ofNat _ seg.vaddr, input.slice seg.offset seg.filesz)
      (base + BitVec.ofNat _ v) ↔ seg.Backs v := by
  have hend : seg.vaddr + seg.memsz ≤ high := hhigh.2 ⟨seg, hseg, rfl⟩
  have hfilesz := h.filesz_le seg hseg
  have hwrap := h.no_wrap seg hseg
  have hhighLt : high < 2 ^ cls.bits := by
    rcases hhigh.1 with ⟨top, htop, rfl⟩
    exact h.no_wrap top htop
  rw [Covers, Input.slice_length (h.has seg hseg)]
  exact inRange_offsets base (by omega) (by omega)

/-- The copies do not overlap. -/
theorem WellFormed.copies_disjoint (h : WellFormed input) (base : BitVec cls.bits) :
    PairwiseApart (input.copies base input.segments) := by
  rw [h.copies_eq, PairwiseApart, List.pairwise_map]
  apply h.sorted.imp_of_mem
  intro a b ha hb hle
  have hfileszA := h.filesz_le a ha
  have hfileszB := h.filesz_le b hb
  have hwrap := h.no_wrap b hb
  rw [Input.slice_length (h.has a ha), Input.slice_length (h.has b hb)]
  rcases Nat.eq_zero_or_pos b.filesz with hzero | hpos
  · -- nothing is copied of an empty segment
    intro p _ hp
    rw [hzero] at hp
    exact absurd hp (Nat.not_lt_zero _)
  · have hle := hle (by omega)
    exact apart_offsets base (by omega) (by omega)

/-- A byte that the file backs. -/
theorem WellFormed.overlay_of_backs (h : WellFormed input) (hhigh : IsHighest input high)
    (base : BitVec cls.bits) (memory : Memory cls.bits) {seg : Segment} (hseg : seg ∈ input.loads)
    {v : Nat} (hv : v < high) (hbacks : seg.Backs v) :
    input.bytes[seg.offset + (v - seg.vaddr)]? =
      some (input.overlay base memory input.segments (base + BitVec.ofNat _ v)) := by
  have hcovers := (h.covers_iff hhigh base hseg hv).mpr hbacks
  have hmem : (base + BitVec.ofNat _ seg.vaddr, input.slice seg.offset seg.filesz) ∈
      input.copies base input.segments := by
    rw [h.copies_eq]
    exact List.mem_map_of_mem hseg
  have hbyte := writeAll_of_covers (m := memory) (h.copies_disjoint base) hmem hcovers
  have hwrap := h.no_wrap seg hseg
  have hfilesz := h.filesz_le seg hseg
  rcases hbacks with ⟨hle, hlt⟩
  -- the offset in the segment
  have hoff : (base + BitVec.ofNat cls.bits v -
      (base + BitVec.ofNat cls.bits seg.vaddr)).toNat = v - seg.vaddr := by
    have hsplit : base + BitVec.ofNat cls.bits v =
        base + BitVec.ofNat cls.bits seg.vaddr + BitVec.ofNat cls.bits (v - seg.vaddr) := by
      rw [BitVec.add_assoc, ← BitVec.ofNat_add, Nat.add_sub_cancel' hle]
    rw [hsplit, toNat_add_ofNat_sub _ (by omega)]
  rw [hoff, Input.slice, List.getElem?_take_of_lt (by omega), List.getElem?_drop] at hbyte
  rw [overlay_eq_writeAll, hbyte]

/-- A byte that the file does not back. -/
theorem WellFormed.overlay_of_not_backs (h : WellFormed input) (hhigh : IsHighest input high)
    (base : BitVec cls.bits) (memory : Memory cls.bits) {v : Nat} (hv : v < high)
    (hnone : ∀ seg ∈ input.loads, ¬ seg.Backs v) :
    input.overlay base memory input.segments (base + BitVec.ofNat _ v) =
      memory (base + BitVec.ofNat _ v) := by
  rw [overlay_eq_writeAll, writeAll_of_not_covered]
  intro entry hentry hcovers
  rw [h.copies_eq] at hentry
  rcases List.mem_map.mp hentry with ⟨seg, hseg, rfl⟩
  exact hnone seg hseg ((h.covers_iff hhigh base hseg hv).mp hcovers)

end

/-! ## The loader -/

/-- The image is the one that the file describes. -/
structure ImageOf (input : Input cls) (base : BitVec cls.bits) (high : Nat) (image : Image cls) :
    Prop where
  blob : image.leaf.blob = base
  blobLength : image.leaf.blobLength = high
  backed : ∀ v, v < high → ∀ seg ∈ input.loads, seg.Backs v →
    input.bytes[seg.offset + (v - seg.vaddr)]? = some (image.memory (base + BitVec.ofNat _ v))
  zero : ∀ v, v < high → (∀ seg ∈ input.loads, ¬ seg.Backs v) →
    image.memory (base + BitVec.ofNat _ v) = 0
  dyns : ∀ before seg after, input.segments = before ++ seg :: after → seg.isDynamic →
    (∀ other ∈ after, ¬ other.isDynamic) → image.dyns = some seg.offset

/-- The loader makes the image that a well-formed file describes, and returns an error string when
there is no dynamic section, exactly when no loadable segment ends behind the last one. -/
theorem loadSegments_image_iff (sys : System cls) (input : Input cls) (leaf : LeafObject cls.bits)
    (base : BitVec cls.bits) (high : Nat) (hheader : HeaderOk sys input)
    (hmalloc : sys.mallocPhdrs = true) (hread : HeadersRead sys input input.phnum)
    (h : WellFormed input) (hhigh : IsHighest input high)
    (hmap : sys.mmap input.highest = some base) :
    ((∃ image, loadSegments sys input leaf = .ok image ∧ ImageOf input base high image) ∧
      ((∀ seg ∈ input.segments, ¬ seg.isDynamic) →
        ∃ error leaf', loadDynamic sys input leaf = fail error leaf')) ↔ EndsLast input := by
  rw [← h.highest_eq_iff hhigh]
  constructor
  · -- what is made has the size of the mapping
    rintro ⟨⟨image, hok, himage⟩, _⟩
    have hsizes : AllSizesIn input := fun seg _ => h.sizesIn seg
    rw [loadSegments_of_read leaf hheader hmalloc hread, if_pos hsizes, hmap] at hok
    simp only at hok
    split_ifs at hok
    cases hok
    exact himage.blobLength
  intro hhighest
  have hok : loadSegments sys input leaf = .ok (input.image sys leaf base) :=
    loadSegments_of_safe leaf hheader hmalloc hread (fun seg _ => h.sizesIn seg) hmap
      fun seg hseg => hhighest ▸ h.copySafe hhigh hseg
  have hfits := (sys.mmap_valid _ base hmap).2.2.2
  rw [hhighest] at hfits
  refine ⟨⟨_, hok, ?_, ?_, ?_, ?_, ?_⟩, ?_⟩
  · rfl
  · exact hhighest
  · intro v hv seg hseg hbacks
    exact h.overlay_of_backs hhigh base _ hseg hv hbacks
  · intro v hv hnone
    change input.overlay base _ input.segments _ = 0
    rw [h.overlay_of_not_backs hhigh base _ hv hnone, hhighest]
    exact zeros_apply _ (inRange_offset base hv (by omega))
  · intro before seg after hsplit hdynamic hafter
    change lastOf Segment.isDynamic Segment.offset input.segments = _
    have hnone : after.filter Segment.isDynamic = [] := List.filter_eq_nil_iff.mpr hafter
    rw [hsplit, lastOf, List.filter_append, List.filter_cons, if_pos hdynamic, hnone,
      List.getLast?_concat]
    rfl
  · intro hnone
    refine ⟨"Failed to find dynamic info", input.mapped leaf base, ?_⟩
    have hdyns : (input.image sys leaf base).dyns = none := lastOf_eq_none_iff.mpr hnone
    rw [loadDynamic, hok, ok_bind, hdyns]
    rfl

/-- A file with a dynamic section between two loadable segments. -/
def Sample.sorted : Input .elf32 where
  contents := 0x8000
  bytes := Sample.ehdr 32 3 ++ Sample.phdr 1 0 0 16 20 ++ Sample.phdr 2 148 0 8 8 ++
    Sample.phdr 1 148 24 8 16 ++ Sample.dyn 0 0
  length_lt := by decide +kernel

theorem Sample.sorted_loads :
    Sample.sorted.loads = [⟨1, 0, 0, 16, 20⟩, ⟨1, 148, 24, 8, 16⟩] := by
  decide

theorem Sample.sorted_wellFormed : WellFormed Sample.sorted where
  phentsize := by decide
  ascending := by rw [Sample.sorted_loads]; decide
  nonOverlapping := by
    rw [Sample.sorted_loads]
    simp [Segment.Spans]
    omega
  filesz_le := by rw [Sample.sorted_loads]; decide
  no_wrap := by rw [Sample.sorted_loads]; decide
  has := by rw [Sample.sorted_loads]; decide +kernel

theorem Sample.sorted_isHighest : IsHighest Sample.sorted 40 := by
  rw [IsHighest, Sample.sorted_loads]
  constructor
  · exact ⟨⟨1, 148, 24, 8, 16⟩, by decide, rfl⟩
  · rintro stop ⟨seg, hseg, rfl⟩
    revert seg
    decide

/-- The file is loaded. -/
theorem loadSegments_image_sorted :
    (∃ image, loadSegments Sample.system Sample.sorted (leafInit _) = .ok image ∧
        ImageOf Sample.sorted 0x10000 40 image) ∧
      ((∀ seg ∈ Sample.sorted.segments, ¬ seg.isDynamic) →
        ∃ error leaf, loadDynamic Sample.system Sample.sorted (leafInit _) = fail error leaf) :=
  (loadSegments_image_iff Sample.system Sample.sorted (leafInit _) 0x10000 40
    ⟨⟨rfl, by decide +kernel⟩, by decide +kernel⟩ rfl ⟨fun _ _ => rfl, by decide +kernel⟩
    Sample.sorted_wellFormed Sample.sorted_isHighest (by decide)).mpr
      (Sample.sorted_wellFormed.endsLast (by rw [Sample.sorted_loads]; decide))

/-- A file whose last loadable segment is empty, and inside the one before it. -/
def Sample.nested : Input .elf32 where
  contents := 0x8000
  bytes := Sample.ehdr 32 3 ++ Sample.phdr 1 148 0 8 20 ++ Sample.phdr 1 148 10 0 0 ++
    Sample.phdr 2 148 0 8 8 ++ Sample.dyn 0 0
  length_lt := by decide +kernel

theorem Sample.nested_loads :
    Sample.nested.loads = [⟨1, 148, 0, 8, 20⟩, ⟨1, 148, 10, 0, 0⟩] := by
  decide

theorem Sample.nested_wellFormed : WellFormed Sample.nested where
  phentsize := by decide
  ascending := by rw [Sample.nested_loads]; decide
  nonOverlapping := by
    rw [Sample.nested_loads]
    simp [Segment.Spans]
  filesz_le := by rw [Sample.nested_loads]; decide
  no_wrap := by rw [Sample.nested_loads]; decide
  has := by rw [Sample.nested_loads]; decide +kernel

/-- It meets the conditions and is loaded, but the mapping ends in the middle of its segment. -/
theorem loadSegments_not_image :
    HeaderOk Sample.system Sample.nested ∧
      HeadersRead Sample.system Sample.nested Sample.nested.phnum ∧
      WellFormed Sample.nested ∧ IsHighest Sample.nested 20 ∧
      (∃ image, loadSegments Sample.system Sample.nested (leafInit _) = .ok image ∧
        image.leaf.blobLength = 10) ∧
      ¬ ∃ base image, loadSegments Sample.system Sample.nested (leafInit _) = .ok image ∧
        ImageOf Sample.nested base 20 image := by
  have hheader : HeaderOk Sample.system Sample.nested :=
    ⟨⟨rfl, by decide +kernel⟩, by decide +kernel⟩
  have hread : HeadersRead Sample.system Sample.nested Sample.nested.phnum :=
    ⟨fun _ _ => rfl, by decide +kernel⟩
  have hhighest : Sample.nested.highest = 10 := by decide
  have hhigh : IsHighest Sample.nested 20 := by
    rw [IsHighest, Sample.nested_loads]
    constructor
    · exact ⟨⟨1, 148, 0, 8, 20⟩, by decide, rfl⟩
    · rintro stop ⟨seg, hseg, rfl⟩
      revert seg
      decide
  have hmap : Sample.system.mmap Sample.nested.highest = some 0x10000 := by
    rw [hhighest]
    rfl
  have hok := loadSegments_of_safe (leafInit _) hheader rfl hread
    (fun seg _ => Sample.nested_wellFormed.sizesIn seg) hmap (by decide +kernel)
  refine ⟨hheader, hread, Sample.nested_wellFormed, hhigh, ⟨_, hok, hhighest⟩, ?_⟩
  rintro ⟨base, image, hok', himage⟩
  rw [hok] at hok'
  cases hok'
  have hlength := himage.blobLength
  exact absurd (hhighest.symm.trans hlength) (by decide)

end AndrLeaf
end KnShim
