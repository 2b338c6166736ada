import KnShim.AndrLeaf.Dynamic

/-!
# AndrLeaf.ScanOrder — the order of the dynamic entries

Two dynamic sections with the same entries, where only the order of the `DT_NEEDED` entries is kept,
are scanned with one result: `scanNames_reordered`.
-/

namespace KnShim
namespace AndrLeaf

open Lib Load

variable {cls : ElfClass}

/-- The entries for relocations without and with addends. -/
def relTags : List DynTag := [.rel, .relSz, .relEnt]

def relaTags : List DynTag := [.rela, .relaSz, .relaEnt]

/-- The same entries in another order, in which the needed libraries are in the same order; no tag
occurs twice, and there are not entries of both families of relocations. -/
structure Reordered (dyns dyns' : List LeafDyn) : Prop where
  perm : dyns.Perm dyns'
  needed : dyns.filter (LeafDyn.hasTag [.needed]) = dyns'.filter (LeafDyn.hasTag [.needed])
  once : ∀ tag, tag ≠ .needed → (dyns.filter (LeafDyn.hasTag [tag])).length ≤ 1
  oneFamily : ¬ ((∃ dyn ∈ dyns, dyn.hasTag relTags) ∧ ∃ dyn ∈ dyns, dyn.hasTag relaTags)

/-- The scan and the correction of the names, with all variables. -/
def scanNames (input : Input cls) (image : Image cls) (pos : Nat) :
    Load cls.bits (Image cls × Scan cls.bits) := do
  let (image, scan) ← scanDynamic input image pos
  let image ← attempt _ (saveDynamic image scan)
  return (image, scan)

/-! ## Single assignments -/

theorem hasTag_iff {tags : List DynTag} {dyn : LeafDyn} :
    dyn.hasTag tags = true ↔ dyn.dTag ∈ tags := decide_eq_true_iff

/-- A variable that one entry assigns. -/
theorem assigned_perm {β : Type} {tags : List DynTag} {value : Nat → β} {old : β}
    {dyns dyns' : List LeafDyn} (h : dyns.Perm dyns')
    (hone : (dyns.filter (LeafDyn.hasTag tags)).length ≤ 1) :
    assigned tags value old dyns = assigned tags value old dyns' := by
  rw [assigned, assigned, lastOf_perm h hone]

/-- Of two tags one does not occur. -/
theorem filter_pair_length {dyns : List LeafDyn} {a b : DynTag}
    (ha : (dyns.filter (LeafDyn.hasTag [a])).length ≤ 1)
    (hb : (dyns.filter (LeafDyn.hasTag [b])).length ≤ 1)
    (hnot : (∀ dyn ∈ dyns, dyn.dTag ≠ a) ∨ ∀ dyn ∈ dyns, dyn.dTag ≠ b) :
    (dyns.filter (LeafDyn.hasTag [a, b])).length ≤ 1 := by
  rcases hnot with hnot | hnot
  · have hfilter : dyns.filter (LeafDyn.hasTag [a, b]) = dyns.filter (LeafDyn.hasTag [b]) := by
      apply List.filter_congr
      intro dyn hdyn
      have hne := hnot dyn hdyn
      simp [LeafDyn.hasTag, hne]
    rwa [hfilter]
  · have hfilter : dyns.filter (LeafDyn.hasTag [a, b]) = dyns.filter (LeafDyn.hasTag [a]) := by
      apply List.filter_congr
      intro dyn hdyn
      have hne := hnot dyn hdyn
      simp [LeafDyn.hasTag, hne]
    rwa [hfilter]

/-- One of the families does not occur. -/
theorem Reordered.family {dyns dyns' : List LeafDyn} (h : Reordered dyns dyns') {a b : DynTag}
    (ha : a ∈ relaTags) (hb : b ∈ relTags) :
    (∀ dyn ∈ dyns, dyn.dTag ≠ a) ∨ ∀ dyn ∈ dyns, dyn.dTag ≠ b := by
  by_cases hrel : ∃ dyn ∈ dyns, dyn.hasTag relTags
  · left
    rintro dyn hdyn rfl
    exact h.oneFamily ⟨hrel, dyn, hdyn, hasTag_iff.mpr ha⟩
  · right
    rintro dyn hdyn rfl
    exact hrel ⟨dyn, hdyn, hasTag_iff.mpr hb⟩

/-- The variables are the same for both orders. -/
theorem Reordered.scanned_eq {dyns dyns' : List LeafDyn} (h : Reordered dyns dyns') {w : Nat}
    (memory : Memory w) (blob : BitVec w) (scan : Scan w) :
    scanned memory blob scan dyns = scanned memory blob scan dyns' := by
  have hone : ∀ tag, tag ≠ .needed → (dyns.filter (LeafDyn.hasTag [tag])).length ≤ 1 := h.once
  have hpair : ∀ a b, a ∈ relaTags → b ∈ relTags →
      (dyns.filter (LeafDyn.hasTag [a, b])).length ≤ 1 := by
    intro a b ha hb
    apply filter_pair_length _ _ (h.family ha hb)
    · apply hone
      rintro rfl
      revert ha
      decide
    · apply hone
      rintro rfl
      revert hb
      decide
  apply Scan.ext
  case dlHandles => simp only [scanned, neededNames, h.needed]
  case relocs => exact assigned_perm h.perm (hpair _ _ (by decide) (by decide))
  case relocSize => exact assigned_perm h.perm (hpair _ _ (by decide) (by decide))
  case relocEntSize => exact assigned_perm h.perm (hpair _ _ (by decide) (by decide))
  all_goals exact assigned_perm h.perm (hone _ (by decide))

/-! ## The scan -/

/-- The order of the entries does not matter. -/
theorem scanNames_reordered (input input' : Input cls) (image : Image cls) (pos pos' : Nat)
    (dyns dyns' : List LeafDyn) (h : DynsAt input pos dyns) (h' : DynsAt input' pos' dyns')
    (horder : Reordered dyns dyns') :
    scanNames input image pos = scanNames input' image pos' := by
  have hscan : image.scan dyns = image.scan dyns' := horder.scanned_eq _ _ _
  rw [scanNames, scanNames, scanDynamic_of_dyns image h, scanDynamic_of_dyns image h',
    Image.withNames, Image.withNames, hscan]

/-- Only the tags that occur have to be looked at. -/
theorem once_of_mem {dyns : List LeafDyn}
    (h : ∀ dyn ∈ dyns, dyn.dTag ≠ .needed → (dyns.filter (LeafDyn.hasTag [dyn.dTag])).length ≤ 1)
    (tag : DynTag) (htag : tag ≠ .needed) : (dyns.filter (LeafDyn.hasTag [tag])).length ≤ 1 := by
  by_cases hoccurs : ∃ dyn ∈ dyns, dyn.dTag = tag
  · rcases hoccurs with ⟨dyn, hdyn, rfl⟩
    exact h dyn hdyn htag
  · have hnone : dyns.filter (LeafDyn.hasTag [tag]) = [] := by
      apply List.filter_eq_nil_iff.mpr
      intro dyn hdyn hhas
      exact hoccurs ⟨dyn, hdyn, List.mem_singleton.mp (hasTag_iff.mp hhas)⟩
    rw [hnone]
    exact Nat.zero_le 1

/-- Two needed libraries in front of and behind the string table that has their names, and the
other entries that are checked. -/
def Sample.neededFirst : List LeafDyn :=
  [⟨.needed, 7⟩, ⟨.strTab, 100⟩, ⟨.needed, 20⟩, ⟨.rel, 200⟩, ⟨.relSz, 16⟩, ⟨.symTab, 300⟩,
    ⟨.hash, 400⟩, ⟨.jmpRel, 500⟩, ⟨.initArray, 600⟩, ⟨.finiArray, 700⟩, ⟨.finiArraySz, 8⟩]

/-- The libraries behind all other entries, and these in another order. -/
def Sample.neededLast : List LeafDyn :=
  [⟨.finiArraySz, 8⟩, ⟨.finiArray, 700⟩, ⟨.initArray, 600⟩, ⟨.hash, 400⟩, ⟨.relSz, 16⟩,
    ⟨.rel, 200⟩, ⟨.strTab, 100⟩, ⟨.jmpRel, 500⟩, ⟨.symTab, 300⟩, ⟨.needed, 7⟩, ⟨.needed, 20⟩]

/-- A buffer with the first section. -/
def Sample.neededFirstInput : Input .elf32 where
  contents := 0x8000
  bytes := Sample.dyn 1 7 ++ Sample.dyn 5 100 ++ Sample.dyn 1 20 ++ Sample.dyn 17 200 ++
    Sample.dyn 18 16 ++ Sample.dyn 6 300 ++ Sample.dyn 4 400 ++ Sample.dyn 23 500 ++
    Sample.dyn 25 600 ++ Sample.dyn 26 700 ++ Sample.dyn 28 8 ++ Sample.dyn 0 0
  length_lt := by decide

/-- A buffer with the second section, behind other bytes. -/
def Sample.neededLastInput : Input .elf32 where
  contents := 0x9000
  bytes := toLE 4 0 ++ Sample.dyn 28 8 ++ Sample.dyn 26 700 ++ Sample.dyn 25 600 ++
    Sample.dyn 4 400 ++ Sample.dyn 18 16 ++ Sample.dyn 17 200 ++ Sample.dyn 5 100 ++
    Sample.dyn 23 500 ++ Sample.dyn 6 300 ++ Sample.dyn 1 7 ++ Sample.dyn 1 20 ++ Sample.dyn 0 0
  length_lt := by decide

/-- An image at address 0 whose hash table has two symbols. -/
def Sample.twoSymbols : Image .elf32 :=
  ⟨leafInit _, fun p => if p = 404 then 2 else 0, some 0⟩

/-- What is found in both sections. -/
def Sample.found : Scan 32 := Sample.twoSymbols.scan Sample.neededFirst

/-- The image with the names of the libraries, and what is saved in it. -/
def Sample.named : Image .elf32 :=
  { Sample.twoSymbols with
    leaf := { Sample.twoSymbols.leaf with
      strtab := 100, symtab := 300, symCount := 2, finiArray := 700, finiCount := 2
      dlHandles := [107, 120] } }

theorem Sample.neededFirst_at : DynsAt Sample.neededFirstInput 0 Sample.neededFirst := by
  decide +kernel

/-- Both pass the checks, with one list of names. -/
theorem scanNames_reordered_needed :
    (∃ image scan, scanNames Sample.neededFirstInput Sample.twoSymbols 0 = .ok (image, scan) ∧
      image.leaf.dlHandles = [107, 120] ∧ scan.symCount = 2 ∧ scan.relocSize = some 16) ∧
      scanNames Sample.neededFirstInput Sample.twoSymbols 0 =
        scanNames Sample.neededLastInput Sample.twoSymbols 4 := by
  constructor
  · have hcheck : (Sample.twoSymbols.scan Sample.neededFirst).check = none := by decide +kernel
    have hok : scanNames Sample.neededFirstInput Sample.twoSymbols 0 =
        .ok (Sample.named, Sample.found) := by
      rw [scanNames, scanDynamic_of_dyns _ Sample.neededFirst_at, hcheck]
      rfl
    exact ⟨_, _, hok, by decide +kernel⟩
  · exact scanNames_reordered Sample.neededFirstInput Sample.neededLastInput _ 0 4
      Sample.neededFirst Sample.neededLast Sample.neededFirst_at (by decide +kernel)
      { perm := by decide
        needed := by decide
        once := once_of_mem (by decide)
        oneFamily := by decide }

end AndrLeaf
end KnShim
