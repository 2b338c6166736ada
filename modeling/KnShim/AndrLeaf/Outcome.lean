import KnShim.AndrLeaf.Locals

/-!
# AndrLeaf.Outcome — every way in which loading can end

`Outcome` lists the results that `loadDynamic` can have, each with what the file and the system are
like when it does, and `loadDynamic_outcome` says that the list is complete.
-/

namespace KnShim
namespace AndrLeaf

open Lib Load

variable {cls : ElfClass}

/-! ## The checks for missing entries -/

/-- The last entry with one of the tags has an address other than `NULL`. -/
def PointsTo {w : Nat} (blob : BitVec w) (tags : List DynTag) (dyns : List LeafDyn) : Prop :=
  ∃ dPtr, valueOf tags dyns = some dPtr ∧ blobAt blob dPtr ≠ 0

/-- The entries that the loader asks for are there. -/
structure EntriesThere {w : Nat} (memory : Memory w) (blob : BitVec w) (dyns : List LeafDyn) :
    Prop where
  strtab : PointsTo blob [.strTab] dyns
  relocs : PointsTo blob [.rela, .rel] dyns
  symtab : PointsTo blob [.symTab] dyns
  pltRelocs : PointsTo blob [.jmpRel] dyns
  initArray : PointsTo blob [.initArray] dyns
  finiArray : PointsTo blob [.finiArray] dyns
  symCount : ∃ dPtr, valueOf [.hash] dyns = some dPtr ∧ hashChains memory blob dPtr ≠ 0

/-- A variable that starts with zero. -/
theorem assigned_ne_zero_iff {β : Type} [Zero β] {tags : List DynTag} {value : Nat → β}
    {dyns : List LeafDyn} :
    assigned tags value 0 dyns ≠ 0 ↔ ∃ n, valueOf tags dyns = some n ∧ value n ≠ 0 := by
  rw [assigned, valueOf, lastOf, lastOf]
  cases (dyns.filter (LeafDyn.hasTag tags)).getLast? with
  | none => simp
  | some dyn => simp

theorem ite_some_eq_none {α : Type} {p : Prop} [Decidable p] {a : α} {x : Option α} :
    (if p then some a else x) = none ↔ ¬ p ∧ x = none := by
  by_cases hp : p
  · simp [hp]
  · simp [hp]

/-- The checks pass when the entries are there. -/
theorem check_scan_iff (image : Image cls) (dyns : List LeafDyn) :
    (image.scan dyns).check = none ↔ EntriesThere image.memory image.leaf.blob dyns := by
  have hcheck : (image.scan dyns).check = none ↔
      (image.scan dyns).strtab ≠ 0 ∧ (image.scan dyns).relocs ≠ 0 ∧
        (image.scan dyns).symtab ≠ 0 ∧ (image.scan dyns).pltRelocs ≠ 0 ∧
          (image.scan dyns).initArray ≠ 0 ∧ (image.scan dyns).finiArray ≠ 0 ∧
            (image.scan dyns).symCount ≠ 0 := by
    simp only [Scan.check, ite_some_eq_none, and_true, ne_eq]
  rw [hcheck]
  constructor
  · rintro ⟨hstrtab, hrelocs, hsymtab, hplt, hinit, hfini, hcount⟩
    exact {
      strtab := assigned_ne_zero_iff.mp hstrtab
      relocs := assigned_ne_zero_iff.mp hrelocs
      symtab := assigned_ne_zero_iff.mp hsymtab
      pltRelocs := assigned_ne_zero_iff.mp hplt
      initArray := assigned_ne_zero_iff.mp hinit
      finiArray := assigned_ne_zero_iff.mp hfini
      symCount := assigned_ne_zero_iff.mp hcount }
  · intro h
    exact ⟨assigned_ne_zero_iff.mpr h.strtab, assigned_ne_zero_iff.mpr h.relocs,
      assigned_ne_zero_iff.mpr h.symtab, assigned_ne_zero_iff.mpr h.pltRelocs,
      assigned_ne_zero_iff.mpr h.initArray, assigned_ne_zero_iff.mpr h.finiArray,
      assigned_ne_zero_iff.mpr h.symCount⟩

/-! ## How far loading gets -/

section

variable (sys : System cls) (input : Input cls)

/-- The array of program headers is made. -/
def ArrayMade : Prop := HeaderOk sys input ∧ sys.mallocPhdrs = true

/-- All program headers are read. -/
def AllRead : Prop := ArrayMade sys input ∧ HeadersRead sys input input.phnum

/-- The memory is mapped at the address. -/
def Mapped (base : BitVec cls.bits) : Prop :=
  AllRead sys input ∧ sys.mmap input.highest = some base

/-- The dynamic section is at the offset, and the pointer to it is not `NULL`. -/
def Input.HasDyns (pos : Nat) : Prop :=
  input.dyns = some pos ∧ input.contents + BitVec.ofNat _ pos ≠ 0

/-- The memory of the mapping with the segments laid over each other. -/
def Input.laidOut (base : BitVec cls.bits) : Memory cls.bits :=
  input.overlay base (sys.memory.zeros base input.highest) input.segments

/-- The results of loading. -/
inductive Outcome (leaf : LeafObject cls.bits) :
    Load cls.bits (Image cls × Scan cls.bits) → Prop where
  | noArray (error : String) (ehdr : Option Bytes) (h : ¬ ArrayMade sys input) :
      Outcome leaf (.error (.returned error { leaf with ehdr := ehdr }))
  | wraps (h : ArrayMade sys input) (hpos : 0 < input.phnum) (hwraps : FirstWraps sys input) :
      Outcome leaf (.error (.fault .outOfBounds))
  | notRead (error : String) (k : Nat) (h : ¬ AllRead sys input) (hk : k < input.phnum)
      (hwraps : ¬ FirstWraps sys input) :
      Outcome leaf (.error (.returned error { leaf with
        ehdr := some input.ehdr
        phdrs := some (input.slots input.phnum k) }))
  | sizes (h : AllRead sys input) (hsizes : ¬ AllSizesIn input) :
      Outcome leaf (.error (.fault .outOfBounds))
  | notMapped (error : String) (h : AllRead sys input) (hsizes : AllSizesIn input)
      (hmap : sys.mmap input.highest = none) :
      Outcome leaf (.error (.returned error (input.mapped leaf (mapFailed _))))
  | copies (base : BitVec cls.bits) (h : Mapped sys input base) (hsafe : ¬ AllCopySafe input) :
      Outcome leaf (.error (.fault .outOfBounds))
  | noDyns (error : String) (base : BitVec cls.bits) (h : Mapped sys input base)
      (hsizes : AllSizesIn input) (hsafe : AllCopySafe input)
      (hdyns : ∀ pos, ¬ input.HasDyns pos) :
      Outcome leaf (.error (.returned error (input.mapped leaf base)))
  | runsOff (fault : Fault) (base : BitVec cls.bits) (pos : Nat) (h : Mapped sys input base)
      (hpos : input.HasDyns pos) (hat : ∀ dyns, ¬ DynsAt input pos dyns) :
      Outcome leaf (.error (.fault fault))
  | missing (error : String) (base : BitVec cls.bits) (pos : Nat) (dyns : List LeafDyn)
      (h : Mapped sys input base) (hsizes : AllSizesIn input) (hsafe : AllCopySafe input)
      (hpos : input.HasDyns pos) (hat : DynsAt input pos dyns)
      (hthere : ¬ EntriesThere (input.laidOut sys base) base dyns) :
      Outcome leaf (.error (.returned error ((input.image sys leaf base).withNames dyns).leaf))
  | done (base : BitVec cls.bits) (pos : Nat) (dyns : List LeafDyn) (h : Mapped sys input base)
      (hsizes : AllSizesIn input) (hsafe : AllCopySafe input) (hpos : input.HasDyns pos)
      (hat : DynsAt input pos dyns) (hthere : EntriesThere (input.laidOut sys base) base dyns) :
      Outcome leaf (.ok ((input.image sys leaf base).withNames dyns,
        (input.image sys leaf base).scan dyns))

end

theorem Mapped.unique {sys : System cls} {input : Input cls} {base base' : BitVec cls.bits}
    (h : Mapped sys input base) (h' : Mapped sys input base') : base = base' :=
  Option.some.inj (h.2.symm.trans h'.2)

theorem Input.HasDyns.unique {input : Input cls} {pos pos' : Nat} (h : input.HasDyns pos)
    (h' : input.HasDyns pos') : pos = pos' :=
  Option.some.inj (h.1.symm.trans h'.1)

/-! ## The list is complete -/

section Complete

variable {sys : System cls} {input : Input cls} {leaf : LeafObject cls.bits}

theorem loadDynamic_of_fail {error : String} {leaf' : LeafObject cls.bits}
    (h : loadSegments sys input leaf = fail error leaf') :
    loadDynamic sys input leaf = .error (.returned error leaf') := by
  rw [loadDynamic, h]
  rfl

theorem loadDynamic_of_fault {fault : Fault}
    (h : loadSegments sys input leaf = .error (.fault fault)) :
    loadDynamic sys input leaf = .error (.fault fault) := by
  rw [loadDynamic, h]
  rfl

/-- The segments are in memory. -/
theorem outcome_of_image {base : BitVec cls.bits} (h : Mapped sys input base)
    (hsizes : AllSizesIn input) (hsafe : AllCopySafe input) :
    Outcome sys input leaf (loadDynamic sys input leaf) := by
  have himage := loadSegments_of_safe leaf h.1.1.1 h.1.1.2 h.1.2 hsizes h.2 hsafe
  have hdyns : (input.image sys leaf base).dyns = input.dyns := rfl
  rw [loadDynamic, himage, ok_bind, hdyns]
  cases hpos : input.dyns with
  | none =>
      refine .noDyns _ base h hsizes hsafe fun pos hhas => ?_
      rw [Input.HasDyns, hpos] at hhas
      exact absurd hhas.1 (by simp)
  | some pos =>
      simp only []
      by_cases hnull : input.contents + BitVec.ofNat _ pos = 0
      · rw [if_pos hnull]
        refine .noDyns _ base h hsizes hsafe fun pos' hhas => ?_
        rw [Input.HasDyns, hpos] at hhas
        cases hhas.1
        exact hhas.2 hnull
      · rw [if_neg hnull]
        by_cases hat : ∃ dyns, DynsAt input pos dyns
        · -- the scan has ended, and the checks follow
          rcases hat with ⟨dyns, hat⟩
          have hcheck := check_scan_iff (input.image sys leaf base) dyns
          rw [scanDynamic_of_dyns _ hat]
          cases hresult : ((input.image sys leaf base).scan dyns).check with
          | none =>
              exact .done base pos dyns h hsizes hsafe ⟨hpos, hnull⟩ hat (hcheck.mp hresult)
          | some error =>
              refine .missing error base pos dyns h hsizes hsafe ⟨hpos, hnull⟩ hat fun hthere => ?_
              rw [hcheck.mpr hthere] at hresult
              cases hresult
        · rcases scanDynamic_of_not_dyns (input.image sys leaf base) hat with ⟨fault, hfault⟩
          rw [hfault]
          exact .runsOff fault base pos h ⟨hpos, hnull⟩ fun dyns hdyns => hat ⟨dyns, hdyns⟩

/-- The headers are read. -/
theorem outcome_of_read (h : AllRead sys input) :
    Outcome sys input leaf (loadDynamic sys input leaf) := by
  have hload := loadSegments_of_read leaf h.1.1 h.1.2 h.2
  by_cases hsizes : AllSizesIn input
  · cases hmap : sys.mmap input.highest with
    | none =>
        rw [if_pos hsizes, hmap] at hload
        rw [loadDynamic_of_fail hload]
        exact .notMapped _ h hsizes hmap
    | some base =>
        by_cases hsafe : AllCopySafe input
        · exact outcome_of_image ⟨h, hmap⟩ hsizes hsafe
        · rw [if_pos hsizes, hmap] at hload
          rw [loadDynamic_of_fault (hload.trans (if_neg hsafe))]
          exact .copies base ⟨h, hmap⟩ hsafe
  · rw [loadDynamic_of_fault (hload.trans (if_neg hsizes))]
    exact .sizes h hsizes

end Complete

/-- Loading ends in one of these ways. -/
theorem loadDynamic_outcome (sys : System cls) (input : Input cls) (leaf : LeafObject cls.bits) :
    Outcome sys input leaf (loadDynamic sys input leaf) := by
  by_cases hheader : HeaderOk sys input
  · cases hmalloc : sys.mallocPhdrs with
    | false =>
        rw [loadDynamic_of_fail (loadSegments_of_no_array leaf hheader hmalloc)]
        exact .noArray _ _ fun hmade => by simp [ArrayMade, hmalloc] at hmade
    | true =>
        have hmade : ArrayMade sys input := ⟨hheader, hmalloc⟩
        by_cases hread : HeadersRead sys input input.phnum
        · exact outcome_of_read ⟨hmade, hread⟩
        · rcases loadSegments_of_not_read leaf hheader hmalloc hread with ⟨k, hk, hload⟩
          by_cases hwraps : FirstWraps sys input
          · rw [loadDynamic_of_fault (hload.trans (if_pos hwraps))]
            exact .wraps hmade (Nat.zero_lt_of_lt hk) hwraps
          · rw [loadDynamic_of_fail (hload.trans (if_neg hwraps))]
            exact .notRead _ k (fun hall => hread hall.2) hk hwraps
  · rcases loadSegments_of_not_headerOk leaf hheader with ⟨error, ehdr, hload⟩
    rw [loadDynamic_of_fail hload]
    exact .noArray error ehdr fun hmade => hheader hmade.1

end AndrLeaf
end KnShim
