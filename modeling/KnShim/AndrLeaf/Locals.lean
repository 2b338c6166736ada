import KnShim.AndrLeaf.Dynamic
import KnShim.AndrLeaf.Segments

/-!
# AndrLeaf.Locals — the variables that only some entries assign

The checks for missing entries look at the variables that have an initialiser.  The sizes, the size
of the relocations and the type of the PLT relocations have none and are not checked, so that a run
which passes the checks goes on to use them.  `determined_iff` says which further entries it needs.
-/

namespace KnShim
namespace AndrLeaf

open Lib Load

variable {cls : ElfClass}

/-- The value of the last entry with one of the tags. -/
def valueOf (tags : List DynTag) (dyns : List LeafDyn) : Option Nat :=
  lastOf (LeafDyn.hasTag tags) LeafDyn.dVal dyns

/-- The numbers that linking computes are those of the entries. -/
structure FromEntries (dyns : List LeafDyn) (linked : Linked cls) : Prop where
  relocCount : ∃ size ent, valueOf [.relaSz, .relSz] dyns = some size ∧
    valueOf [.relaEnt, .relEnt] dyns = some ent ∧ ent ≠ 0 ∧
      linked.counts.relocCount = size / ent
  pltRelocCount : ∃ size ent, valueOf [.pltRelSz] dyns = some size ∧
    valueOf [.relaEnt, .relEnt] dyns = some ent ∧ ent ≠ 0 ∧
      linked.counts.pltRelocCount = size / ent
  relocTypes : valueOf [.pltRel] dyns = some linked.relocTypes
  initCount : ∃ size, valueOf [.initArraySz] dyns = some size ∧
    linked.initCount = size / cls.wordBytes
  finiCount : ∃ size, valueOf [.finiArraySz] dyns = some size ∧
    linked.leaf.finiCount = size / cls.wordBytes

/-- Linking uses no variable that was not assigned, does not divide by zero, and computes the
numbers of the entries. -/
def Determined (platform : Platform) (linker : Linker platform.cls.bits)
    (image : Image platform.cls) (scan : Scan platform.cls.bits) (dyns : List LeafDyn) : Prop :=
  ∃ linked, linkDynamic platform linker image scan = .ok linked ∧ FromEntries dyns linked

/-- The entries that are not checked are there too. -/
structure SizesThere (dyns : List LeafDyn) : Prop where
  relocSize : ∃ dyn ∈ dyns, dyn.dTag = .relaSz ∨ dyn.dTag = .relSz
  relocEntSize : ∃ ent, valueOf [.relaEnt, .relEnt] dyns = some ent ∧ ent ≠ 0
  pltRelocsSize : ∃ dyn ∈ dyns, dyn.dTag = .pltRelSz
  relocTypes : ∃ dyn ∈ dyns, dyn.dTag = .pltRel
  initArraySize : ∃ dyn ∈ dyns, dyn.dTag = .initArraySz
  finiArraySize : ∃ dyn ∈ dyns, dyn.dTag = .finiArraySz

/-! ## Variables -/

theorem useLocal_eq_ok {α : Type} {x : Option α} {a : α} : useLocal x = .ok a ↔ x = some a := by
  cases x with
  | none => simp [useLocal]
  | some b => simp [useLocal]

theorem divide_eq_ok {a b n : Nat} : divide a b = .ok n ↔ b ≠ 0 ∧ n = a / b := by
  rw [divide]
  by_cases hb : b = 0
  · simp [hb]
  · simp [hb, eq_comm]

/-- A variable without an initialiser is what the last of its entries says. -/
theorem assigned_none (tags : List DynTag) (dyns : List LeafDyn) :
    assigned tags some none dyns = valueOf tags dyns := by
  rw [assigned, valueOf, lastOf, lastOf]
  cases (dyns.filter (LeafDyn.hasTag tags)).getLast? <;> rfl

/-- It has a value when one of its entries is there. -/
theorem exists_valueOf_iff {tags : List DynTag} {dyns : List LeafDyn} :
    (∃ n, valueOf tags dyns = some n) ↔ ∃ dyn ∈ dyns, dyn.dTag ∈ tags := by
  rw [← Option.isSome_iff_exists, valueOf, lastOf_isSome_iff]
  simp only [LeafDyn.hasTag, decide_eq_true_eq]

/-! ## Linking -/

section Linking

variable {platform : Platform} {linker : Linker platform.cls.bits} {image : Image platform.cls}
  {scan : Scan platform.cls.bits}

theorem relocCounts_eq_ok {counts : RelocCounts} :
    relocCounts scan = .ok counts ↔
      ∃ size ent pltSize, scan.relocSize = some size ∧ scan.relocEntSize = some ent ∧ ent ≠ 0 ∧
        scan.pltRelocsSize = some pltSize ∧ counts = ⟨size / ent, pltSize / ent⟩ := by
  rw [relocCounts]
  simp only [Fallible.bind_eq_ok, useLocal_eq_ok, divide_eq_ok, Fallible.pure_eq,
    Except.ok.injEq]
  constructor
  · rintro ⟨size, hsize, ent, hent, _, ⟨hne, rfl⟩, pltSize, hplt, _, ⟨_, rfl⟩, rfl⟩
    exact ⟨size, ent, pltSize, hsize, hent, hne, hplt, rfl⟩
  · rintro ⟨size, ent, pltSize, hsize, hent, hne, hplt, rfl⟩
    exact ⟨size, hsize, ent, hent, _, ⟨hne, rfl⟩, pltSize, hplt, _, ⟨hne, rfl⟩, rfl⟩

/-- What linking needs of the variables, and the numbers that it computes. -/
theorem linkDynamic_eq_ok {linked : Linked platform.cls}
    (h : linkDynamic platform linker image scan = .ok linked) :
    ∃ finiSize initSize, scan.finiArraySize = some finiSize ∧ scan.initArraySize = some initSize ∧
      relocCounts scan = .ok linked.counts ∧ scan.relocTypes = some linked.relocTypes ∧
        linked.initCount = initSize / platform.cls.wordBytes ∧
          linked.leaf.finiCount = finiSize / platform.cls.wordBytes := by
  rw [linkDynamic, Fallible.bind_eq_ok] at h
  rcases h with ⟨saved, hsaved, h⟩
  rw [saveDynamic, Fallible.bind_eq_ok] at hsaved
  rcases hsaved with ⟨finiSize, hfini, hsaved⟩
  simp only [Fallible.bind_eq_ok, useLocal_eq_ok, Fallible.pure_eq, Except.ok.injEq] at h hsaved
  rcases h with ⟨counts, hcounts, types, htypes, initSize, hinit, rfl⟩
  subst hsaved
  exact ⟨finiSize, initSize, useLocal_eq_ok.mp hfini, hinit, hcounts, htypes, rfl, rfl⟩

/-- When the variables are assigned, linking goes through. -/
theorem linkDynamic_of_assigned (platform : Platform) (linker : Linker platform.cls.bits)
    (image : Image platform.cls) {scan : Scan platform.cls.bits} {finiSize initSize types : Nat}
    {counts : RelocCounts}
    (hfini : scan.finiArraySize = some finiSize) (hinit : scan.initArraySize = some initSize)
    (hcounts : relocCounts scan = .ok counts) (htypes : scan.relocTypes = some types) :
    ∃ linked, linkDynamic platform linker image scan = .ok linked := by
  rw [linkDynamic, saveDynamic, hfini, hinit, hcounts, htypes]
  exact ⟨_, rfl⟩

end Linking

/-- The variables of the scan that have no initialiser. -/
theorem scan_locals (image : Image cls) (dyns : List LeafDyn) :
    (image.scan dyns).relocSize = valueOf [.relaSz, .relSz] dyns ∧
      (image.scan dyns).relocEntSize = valueOf [.relaEnt, .relEnt] dyns ∧
        (image.scan dyns).pltRelocsSize = valueOf [.pltRelSz] dyns ∧
          (image.scan dyns).relocTypes = valueOf [.pltRel] dyns ∧
            (image.scan dyns).initArraySize = valueOf [.initArraySz] dyns ∧
              (image.scan dyns).finiArraySize = valueOf [.finiArraySz] dyns :=
  ⟨assigned_none _ _, assigned_none _ _, assigned_none _ _, assigned_none _ _,
    assigned_none _ _, assigned_none _ _⟩

theorem determined_scan_iff (platform : Platform) (linker : Linker platform.cls.bits)
    (image : Image platform.cls) (dyns : List LeafDyn) :
    Determined platform linker (image.withNames dyns) (image.scan dyns) dyns ↔
      SizesThere dyns := by
  rcases scan_locals image dyns with ⟨hreloc, hent, hplt, htypes, hinit, hfini⟩
  have hone : ∀ tag : DynTag, (∃ n, valueOf [tag] dyns = some n) ↔ ∃ dyn ∈ dyns, dyn.dTag = tag := by
    intro tag
    rw [exists_valueOf_iff]
    simp only [List.mem_singleton]
  have htwo : (∃ n, valueOf [.relaSz, .relSz] dyns = some n) ↔
      ∃ dyn ∈ dyns, dyn.dTag = .relaSz ∨ dyn.dTag = .relSz := by
    rw [exists_valueOf_iff]
    simp only [List.mem_cons, List.not_mem_nil, or_false]
  constructor
  · rintro ⟨linked, _, hfrom⟩
    rcases hfrom.relocCount with ⟨size, ent, hsize, hentry, hne, _⟩
    rcases hfrom.pltRelocCount with ⟨pltSize, _, hpltSize, _⟩
    rcases hfrom.initCount with ⟨initSize, hinitSize, _⟩
    rcases hfrom.finiCount with ⟨finiSize, hfiniSize, _⟩
    exact {
      relocSize := htwo.mp ⟨size, hsize⟩
      relocEntSize := ⟨ent, hentry, hne⟩
      pltRelocsSize := (hone _).mp ⟨pltSize, hpltSize⟩
      relocTypes := (hone _).mp ⟨_, hfrom.relocTypes⟩
      initArraySize := (hone _).mp ⟨initSize, hinitSize⟩
      finiArraySize := (hone _).mp ⟨finiSize, hfiniSize⟩ }
  · intro hthere
    rcases htwo.mpr hthere.relocSize with ⟨size, hsize⟩
    rcases hthere.relocEntSize with ⟨ent, hentry, hne⟩
    rcases (hone _).mpr hthere.pltRelocsSize with ⟨pltSize, hpltSize⟩
    rcases (hone _).mpr hthere.relocTypes with ⟨types, hvalue⟩
    rcases (hone _).mpr hthere.initArraySize with ⟨initSize, hinitSize⟩
    rcases (hone _).mpr hthere.finiArraySize with ⟨finiSize, hfiniSize⟩
    have hcounts : relocCounts (image.scan dyns) = .ok ⟨size / ent, pltSize / ent⟩ :=
      relocCounts_eq_ok.mpr ⟨size, ent, pltSize, hreloc.trans hsize, hent.trans hentry, hne,
        hplt.trans hpltSize, rfl⟩
    rcases linkDynamic_of_assigned platform linker (image.withNames dyns)
      (hfini.trans hfiniSize) (hinit.trans hinitSize) hcounts (htypes.trans hvalue)
      with ⟨linked, hlinked⟩
    -- linking computes the numbers from the same values
    rcases linkDynamic_eq_ok hlinked with
      ⟨finiSize', initSize', hfini', hinit', hcounts', htypes', hinitCount, hfiniCount⟩
    have hvalues : (⟨size / ent, pltSize / ent⟩ : RelocCounts) = linked.counts :=
      Except.ok.inj (hcounts.symm.trans hcounts')
    refine ⟨linked, hlinked, ?_⟩
    exact {
      relocCount := ⟨size, ent, hsize, hentry, hne, by rw [← hvalues]⟩
      pltRelocCount := ⟨pltSize, ent, hpltSize, hentry, hne, by rw [← hvalues]⟩
      relocTypes := htypes.symm.trans htypes'
      initCount := ⟨initSize', hinit.symm.trans hinit', hinitCount⟩
      finiCount := ⟨finiSize', hfini.symm.trans hfini', hfiniCount⟩ }

/-- Behind the checks, linking is determined by the file exactly when the sizes are there. -/
theorem determined_iff (platform : Platform) (linker : Linker platform.cls.bits)
    (input : Input platform.cls) (image : Image platform.cls) (pos : Nat) (dyns : List LeafDyn)
    (h : DynsAt input pos dyns) :
    (∃ error leaf, scanDynamic input image pos = fail error leaf) ∨
      ∃ image' scan, scanDynamic input image pos = .ok (image', scan) ∧
        (Determined platform linker image' scan dyns ↔ SizesThere dyns) := by
  rw [scanDynamic_of_dyns image h]
  cases hcheck : (image.scan dyns).check with
  | some error => exact Or.inl ⟨error, _, rfl⟩
  | none =>
      exact Or.inr ⟨image.withNames dyns, image.scan dyns, rfl,
        determined_scan_iff platform linker image dyns⟩

/-- A file with one symbol and the entries that are checked, and no sizes. -/
def Sample.noSizes : Input .elf32 where
  contents := 0x8000
  bytes := Sample.ehdr 32 2 ++ Sample.phdr 1 0 0 124 124 ++ Sample.phdr 2 124 124 64 64 ++
    toLE 4 1 ++ toLE 4 1 ++ Sample.dyn 5 4 ++ Sample.dyn 17 4 ++ Sample.dyn 6 4 ++
    Sample.dyn 23 4 ++ Sample.dyn 25 4 ++ Sample.dyn 26 4 ++ Sample.dyn 4 116 ++ Sample.dyn 0 0
  length_lt := by decide +kernel

/-- Its dynamic entries. -/
def Sample.pointers : List LeafDyn :=
  [⟨.strTab, 4⟩, ⟨.rel, 4⟩, ⟨.symTab, 4⟩, ⟨.jmpRel, 4⟩, ⟨.initArray, 4⟩, ⟨.finiArray, 4⟩,
    ⟨.hash, 116⟩]

/-- Its image. -/
def Sample.noSizesImage : Image .elf32 :=
  Sample.noSizes.image Sample.system (leafInit _) 0x10000

theorem Sample.noSizes_dyns : DynsAt Sample.noSizes 124 Sample.pointers := by decide +kernel

/-- The file passes the checks, and a size is used that was not assigned. -/
theorem noSizes_not_determined :
    ∃ image scan, loadDynamic Sample.system Sample.noSizes (leafInit _) = .ok (image, scan) ∧
      ∀ linker, ¬ Determined .i386 linker image scan Sample.pointers := by
  have hsegments : loadSegments Sample.system Sample.noSizes (leafInit _) =
      .ok Sample.noSizesImage :=
    loadSegments_of_safe _ ⟨⟨rfl, by decide +kernel⟩, by decide +kernel⟩ rfl
      ⟨fun _ _ => rfl, by decide +kernel⟩ (by decide +kernel) (by decide +kernel)
      (by decide +kernel)
  have hdyns : Sample.noSizesImage.dyns = some 124 := by decide +kernel
  have hcheck : (Sample.noSizesImage.scan Sample.pointers).check = none := by decide +kernel
  refine ⟨Sample.noSizesImage.withNames Sample.pointers,
    Sample.noSizesImage.scan Sample.pointers, ?_, ?_⟩
  · rw [loadDynamic, hsegments, ok_bind, hdyns]
    simp only []
    rw [if_neg (by decide), scanDynamic_of_dyns _ Sample.noSizes_dyns, hcheck]
  · intro linker hdetermined
    -- there is no entry with the size of the relocations
    have hthere := (determined_scan_iff .i386 linker Sample.noSizesImage Sample.pointers).mp
      hdetermined
    exact absurd hthere.relocSize (by decide)

/-- Linking the file is not determined, as there are no sizes. -/
theorem determined_iff_noSizes :
    (∃ error leaf, scanDynamic Sample.noSizes Sample.noSizesImage 124 = fail error leaf) ∨
      ∃ image scan, scanDynamic Sample.noSizes Sample.noSizesImage 124 = .ok (image, scan) ∧
        (Determined .i386 Sample.linker image scan Sample.pointers ↔
          SizesThere Sample.pointers) :=
  determined_iff .i386 Sample.linker Sample.noSizes Sample.noSizesImage 124 Sample.pointers
    Sample.noSizes_dyns

end AndrLeaf
end KnShim
