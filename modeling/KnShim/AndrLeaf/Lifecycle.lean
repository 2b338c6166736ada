import KnShim.AndrLeaf.Free

/-!
# AndrLeaf.Lifecycle — an object from its file to `LeafFree`

`Segments`, `Dynamic`, `Locals` and `Link` treat the parts of `LeafLoadFromBuffer`.  Here they are put
together: `loaded_iff` says for which files it returns `NULL`, what the object and its memory are
then, and that `LeafFree` gives back all that the object owns except its copy of the ELF header.
-/

namespace KnShim
namespace AndrLeaf

open Lib Load

/-! ## When a file is loaded -/

theorem attempt_eq_ok {w : Nat} {α : Type} {x : Fallible α} {a : α} :
    attempt w x = .ok a ↔ x = .ok a := by
  cases x with
  | error fault => simp [attempt]
  | ok b => simp [attempt]

/-- The system maps the object at `base`, and what is used of the file is in it; its dynamic entries
are `dyns` and stand at `pos`. -/
structure Loads {cls : ElfClass} (sys : System cls) (input : Input cls) (base : BitVec cls.bits)
    (pos : Nat) (dyns : List LeafDyn) : Prop where
  mapped : Mapped sys input base
  sizes : AllSizesIn input
  copies : AllCopySafe input
  dynamic : input.HasDyns pos
  entries : DynsAt input pos dyns
  there : EntriesThere (input.laidOut sys base) base dyns
  numbers : SizesThere dyns

/-- The number in the last entry with one of the tags. -/
def numberOf (tags : List DynTag) (dyns : List LeafDyn) : Nat := (valueOf tags dyns).getD 0

/-- How many relocations the entries say there are. -/
def loadedCounts (dyns : List LeafDyn) : RelocCounts where
  relocCount := numberOf [.relaSz, .relSz] dyns / numberOf [.relaEnt, .relEnt] dyns
  pltRelocCount := numberOf [.pltRelSz] dyns / numberOf [.relaEnt, .relEnt] dyns

section Loading

variable (platform : Platform) (sys : System platform.cls) (linker : Linker platform.cls.bits)
  (input : Input platform.cls) (base : BitVec platform.cls.bits) (dyns : List LeafDyn)

/-- What the scan finds. -/
def loadedScan : Scan platform.cls.bits := (input.image sys (leafInit _) base).scan dyns

/-- What `dlopen` answers for the needed libraries. -/
def openedHandles : List (BitVec platform.cls.bits) :=
  ((neededNames _ dyns).map fun name => name + (loadedScan platform sys input base dyns).strtab).map
    fun name => linker.dlopen (cstringAt (input.laidOut sys base) name)

/-- The object. -/
def loadedLeaf : LeafObject platform.cls.bits :=
  { input.mapped (leafInit _) base with
    strtab := (loadedScan platform sys input base dyns).strtab
    symtab := (loadedScan platform sys input base dyns).symtab
    symCount := (loadedScan platform sys input base dyns).symCount
    finiArray := (loadedScan platform sys input base dyns).finiArray
    finiCount := numberOf [.finiArraySz] dyns / platform.cls.wordBytes
    dlHandles := openedHandles platform sys linker input base dyns }

/-- Its memory when the relocations are applied. -/
def relocatedMemory : Memory platform.cls.bits :=
  relocate platform (loadedLeaf platform sys linker input base dyns)
    (loadedScan platform sys input base dyns) (loadedCounts dyns) (numberOf [.pltRel] dyns)
    (linkSymbols linker (loadedLeaf platform sys linker input base dyns) (input.laidOut sys base))

/-- What is there in the end. -/
def loaded : Linked platform.cls where
  leaf := loadedLeaf platform sys linker input base dyns
  memory :=
    (List.range (numberOf [.initArraySz] dyns / platform.cls.wordBytes)).foldl
      (callInit linker (loadedScan platform sys input base dyns).initArray)
      (relocatedMemory platform sys linker input base dyns)
  counts := loadedCounts dyns
  relocTypes := numberOf [.pltRel] dyns
  initCount := numberOf [.initArraySz] dyns / platform.cls.wordBytes

variable {platform sys linker input base dyns}

theorem valueOf_eq_numberOf {tags : List DynTag} (h : ∃ n, valueOf tags dyns = some n) :
    valueOf tags dyns = some (numberOf tags dyns) := by
  rcases h with ⟨n, hn⟩
  rw [numberOf, hn]
  rfl

/-- What linking has used was assigned by entries. -/
theorem sizesThere_of_linked {image : Image platform.cls} {linked : Linked platform.cls}
    (h : linkDynamic platform linker (image.withNames dyns) (image.scan dyns) = .ok linked) :
    SizesThere dyns := by
  rcases linkDynamic_eq_ok h with ⟨finiSize, initSize, hfini, hinit, hcounts, htypes, _, _⟩
  rcases relocCounts_eq_ok.mp hcounts with ⟨size, ent, plt, hsize, hent, hne, hplt, _⟩
  rcases scan_locals image dyns with ⟨hreloc', hent', hplt', htypes', hinit', hfini'⟩
  have hthere : ∀ (tags : List DynTag) (n : Nat), valueOf tags dyns = some n →
      ∃ dyn ∈ dyns, dyn.dTag ∈ tags :=
    fun tags n hn => exists_valueOf_iff.mp ⟨n, hn⟩
  exact {
    relocSize := by simpa using hthere _ _ (hreloc'.symm.trans hsize)
    relocEntSize := ⟨ent, hent'.symm.trans hent, hne⟩
    pltRelocsSize := by simpa using hthere _ _ (hplt'.symm.trans hplt)
    relocTypes := by simpa using hthere _ _ (htypes'.symm.trans htypes)
    initArraySize := by simpa using hthere _ _ (hinit'.symm.trans hinit)
    finiArraySize := by simpa using hthere _ _ (hfini'.symm.trans hfini) }

/-- The variables have values when the entries are there. -/
theorem SizesThere.values (h : SizesThere dyns) :
    valueOf [.relaSz, .relSz] dyns = some (numberOf [.relaSz, .relSz] dyns) ∧
      valueOf [.relaEnt, .relEnt] dyns = some (numberOf [.relaEnt, .relEnt] dyns) ∧
        numberOf [.relaEnt, .relEnt] dyns ≠ 0 ∧
          valueOf [.pltRelSz] dyns = some (numberOf [.pltRelSz] dyns) ∧
            valueOf [.pltRel] dyns = some (numberOf [.pltRel] dyns) ∧
              valueOf [.initArraySz] dyns = some (numberOf [.initArraySz] dyns) ∧
                valueOf [.finiArraySz] dyns = some (numberOf [.finiArraySz] dyns) := by
  have hone : ∀ tag : DynTag, (∃ dyn ∈ dyns, dyn.dTag = tag) →
      valueOf [tag] dyns = some (numberOf [tag] dyns) := by
    intro tag htag
    exact valueOf_eq_numberOf (exists_valueOf_iff.mpr (by simpa using htag))
  rcases h.relocEntSize with ⟨ent, hent, hne⟩
  refine ⟨valueOf_eq_numberOf (exists_valueOf_iff.mpr (by simpa using h.relocSize)),
    valueOf_eq_numberOf ⟨ent, hent⟩, ?_, hone _ h.pltRelocsSize, hone _ h.relocTypes,
    hone _ h.initArraySize, hone _ h.finiArraySize⟩
  rwa [numberOf, hent]

/-- The checks are passed. -/
theorem loadDynamic_of_loads {pos : Nat} (h : Loads sys input base pos dyns)
    (leaf : LeafObject platform.cls.bits) :
    loadDynamic sys input leaf = .ok ((input.image sys leaf base).withNames dyns,
      (input.image sys leaf base).scan dyns) := by
  have himage := loadSegments_of_safe leaf h.mapped.1.1.1 h.mapped.1.1.2 h.mapped.1.2 h.sizes
    h.mapped.2 h.copies
  have hdyns : (input.image sys leaf base).dyns = some pos := h.dynamic.1
  have hcheck : ((input.image sys leaf base).scan dyns).check = none :=
    (check_scan_iff _ dyns).mpr h.there
  rw [loadDynamic, himage, ok_bind, hdyns]
  simp only []
  rw [if_neg h.dynamic.2, scanDynamic_of_dyns _ h.entries, hcheck]

/-- With all numbers there, linking goes through. -/
theorem linkDynamic_loaded (h : SizesThere dyns) :
    linkDynamic platform linker ((input.image sys (leafInit _) base).withNames dyns)
      (loadedScan platform sys input base dyns) =
        .ok (loaded platform sys linker input base dyns) := by
  rcases h.values with ⟨hreloc, hent, hne, hplt, htypes, hinit, hfini⟩
  rcases scan_locals (input.image sys (leafInit _) base) dyns with
    ⟨hreloc', hent', hplt', htypes', hinit', hfini'⟩
  have hcounts : relocCounts (loadedScan platform sys input base dyns) = .ok (loadedCounts dyns) :=
    relocCounts_eq_ok.mpr ⟨_, _, _, hreloc'.trans hreloc, hent'.trans hent, hne,
      hplt'.trans hplt, rfl⟩
  have hfiniSize : (loadedScan platform sys input base dyns).finiArraySize =
      some (numberOf [.finiArraySz] dyns) := hfini'.trans hfini
  have hinitSize : (loadedScan platform sys input base dyns).initArraySize =
      some (numberOf [.initArraySz] dyns) := hinit'.trans hinit
  have hrelocTypes : (loadedScan platform sys input base dyns).relocTypes =
      some (numberOf [.pltRel] dyns) := htypes'.trans htypes
  rw [linkDynamic, saveDynamic, hfiniSize, hcounts, hinitSize, hrelocTypes]
  rfl

end Loading

/-- The files that are loaded. -/
theorem leafLoadFromBuffer_eq_ok_iff (platform : Platform) (sys : System platform.cls)
    (linker : Linker platform.cls.bits) (input : Input platform.cls)
    (linked : Linked platform.cls) :
    leafLoadFromBuffer platform sys linker input (leafInit _) = .ok linked ↔
      ∃ base pos dyns, Loads sys input base pos dyns ∧
        linked = loaded platform sys linker input base dyns := by
  constructor
  · intro h
    have houtcome := loadDynamic_outcome sys input (leafInit _)
    rw [leafLoadFromBuffer] at h
    cases hload : loadDynamic sys input (leafInit _) with
    | error stop =>
        rw [hload, error_bind] at h
        cases h
    | ok result =>
        rw [hload] at houtcome h
        cases houtcome with
        | done base pos dyns hmapped hsizes hsafe hpos hat hthere =>
            have hlink := attempt_eq_ok.mp h
            have hnumbers := sizesThere_of_linked hlink
            refine ⟨base, pos, dyns, ⟨hmapped, hsizes, hsafe, hpos, hat, hthere, hnumbers⟩, ?_⟩
            exact Except.ok.inj (hlink.symm.trans (linkDynamic_loaded hnumbers))
  · rintro ⟨base, pos, dyns, h, rfl⟩
    rw [leafLoadFromBuffer, loadDynamic_of_loads h]
    exact attempt_eq_ok.mpr (linkDynamic_loaded h.numbers)

/-! ## When it is freed -/

section Freeing

variable {cls : ElfClass}

/-- The functions of the fini array. -/
def finiFunctions (m : Memory cls.bits) (leaf : LeafObject cls.bits) : List (BitVec cls.bits) :=
  (List.range leaf.finiCount).map fun i =>
    loadWord m (leaf.finiArray + BitVec.ofNat _ (i * cls.wordBytes))

end Freeing

/-- What an object has of the system. -/
inductive Resource (w : Nat) where
  | block (block : Block)
  | mapping (addr : BitVec w) (length : Nat)
  | library (handle : BitVec w)
  deriving DecidableEq, Repr

/-- What is given back. -/
def Release.resource {w : Nat} : Release w → Option (Resource w)
  | .call _ => none
  | .dlclose handle => some (.library handle)
  | .free block => some (.block block)
  | .munmap addr length => some (.mapping addr length)

/-- What `LeafFree` has to release of an object that was loaded at `base`: the functions of its fini
array are called from the last to the first, then each library that was opened is closed, the blocks
of the handles and of the program headers are freed, the memory is unmapped, and the object is
freed. -/
def releases (platform : Platform) (sys : System platform.cls) (linker : Linker platform.cls.bits)
    (input : Input platform.cls) (base : BitVec platform.cls.bits) (dyns : List LeafDyn)
    (m : Memory platform.cls.bits) : List (Release platform.cls.bits) :=
  ((finiFunctions m (loadedLeaf platform sys linker input base dyns)).reverse.filter
      (· ≠ 0)).map .call ++
    ((openedHandles platform sys linker input base dyns).filter (· ≠ 0)).map .dlclose ++
      (handlesBlock (openedHandles platform sys linker input base dyns)).map .free ++
        ((List.range input.phnum).map fun i => .free (.phdr (input.phdr i))) ++
          [.free .phdrs, .munmap base input.highest, .free .object]

end AndrLeaf
end KnShim
