import KnShim.AndrLeaf.Outcome

/-!
# AndrLeaf.Free — freeing an object that was not loaded

`LeafFree` walks all fields of an object without knowing how far loading it got.  It needs the whole
array of program headers, and closes names of libraries that were never opened:
`freesSafely_iff` says for which files an object that was not loaded can be freed.
-/

namespace KnShim
namespace AndrLeaf

open Lib Load

/-! ## `LeafFree` -/

/-- The blocks of memory of an object: the object itself, its copy of the ELF header, the array of
program headers and these, and the array of handles. -/
inductive Block where
  | object
  | ehdr (ehdr : Bytes)
  | phdrs
  | phdr (phdr : Bytes)
  | dlHandles
  deriving DecidableEq, Repr

/-- What `LeafFree` does to the world. -/
inductive Release (w : Nat) where
  | call (func : BitVec w)
  | dlclose (handle : BitVec w)
  | free (block : Block)
  | munmap (addr : BitVec w) (length : Nat)
  deriving DecidableEq, Repr

section

variable {cls : ElfClass}

/-- `LeafFinish`: the functions are called backwards; they leave the array alone. -/
def leafFinish (m : Memory cls.bits) (leaf : LeafObject cls.bits) : List (Release cls.bits) :=
  (List.range' 1 leaf.finiCount).filterMap fun i =>
    let func := loadWord m
      (leaf.finiArray + BitVec.ofNat _ ((leaf.finiCount - i) * cls.wordBytes))
    if func = 0 then none else some (.call func)

/-- The handles are closed. -/
def closeHandles {w : Nat} (handles : List (BitVec w)) : List (Release w) :=
  handles.filterMap fun handle => if handle = 0 then none else some (.dlclose handle)

/-- The block of `dl_handles`, which is `NULL` as long as there is no handle. -/
def handlesBlock {w : Nat} (handles : List (BitVec w)) : List Block :=
  if handles = [] then [] else [.dlHandles]

/-- The loop that frees the program headers up to the `NULL`. -/
def freePhdrs (w : Nat) : List PhdrSlot → Fallible (List (Release w))
  | [] => .error .outOfBounds
  | .unset :: _ => .error .uninitialized
  | .null :: _ => .ok []
  | .header phdr :: slots => do
      return .free (.phdr phdr) :: (← freePhdrs w slots)

/-- `LeafFree`. -/
def leafFree (m : Memory cls.bits) (leaf : LeafObject cls.bits) :
    Fallible (List (Release cls.bits)) := do
  let phdrs ←
    match leaf.phdrs with
    | none => .error .nullDeref
    | some slots => freePhdrs cls.bits slots
  return leafFinish m leaf ++ closeHandles leaf.dlHandles ++
    (handlesBlock leaf.dlHandles).map .free ++ phdrs ++
      [.free .phdrs, .munmap leaf.blob leaf.blobLength, .free .object]

/-! ## What it may do -/

/-- `munmap` refuses addresses that are not those of a page, and empty ranges. -/
def Unmaps {w : Nat} (addr : BitVec w) (length : Nat) : Prop :=
  addr.toNat % 4096 = 0 ∧ length ≠ 0

/-- A block that the object has. -/
def Block.There (input : Input cls) (leaf : LeafObject cls.bits) : Block → Prop
  | .object => True
  | .ehdr header => leaf.ehdr = some header
  | .phdrs => leaf.phdrs ≠ none
  | .phdr header => ∃ i, i < input.phnum ∧ header = input.phdr i
  | .dlHandles => leaf.dlHandles ≠ []

/-- A release of something that is there, when `opened` are the handles from `dlopen`. -/
def Release.Proper (sys : System cls) (input : Input cls) (opened : List (BitVec cls.bits))
    (leaf : LeafObject cls.bits) : Release cls.bits → Prop
  | .call _ => leaf.finiArray ≠ 0
  | .dlclose handle => handle ∈ opened
  | .free block => block.There input leaf
  | .munmap addr length => Unmaps addr length → sys.mmap length = some addr

/-- `LeafFree` uses only what is initialised and releases only what is there. -/
def FreesSafely (sys : System cls) (input : Input cls) (opened : List (BitVec cls.bits))
    (m : Memory cls.bits) (leaf : LeafObject cls.bits) : Prop :=
  ∃ releases, leafFree m leaf = .ok releases ∧
    ∀ release ∈ releases, release.Proper sys input opened leaf

/-- When an object that was not loaded can be freed. -/
structure CanBeFreed (sys : System cls) (input : Input cls) : Prop where
  /-- The array of program headers is there, and all of them were read. -/
  headers : AllRead sys input
  /-- There is no name of a library to be taken for a handle. -/
  names : ∀ base pos dyns, Mapped sys input base → input.HasDyns pos → DynsAt input pos dyns →
    ∀ dyn ∈ dyns, dyn.dTag = .needed → dyn.dVal = 0

/-! ## The loops of `LeafFree` -/

/-- Headers up to a `NULL` are freed. -/
theorem freePhdrs_headers (w : Nat) (phdrs : List Bytes) :
    freePhdrs w (phdrs.map .header ++ [.null]) = .ok (phdrs.map fun phdr => .free (.phdr phdr)) := by
  induction phdrs with
  | nil => rfl
  | cons phdr phdrs ih =>
      rw [List.map_cons, List.cons_append, freePhdrs, ih]
      rfl

/-- Headers up to a slot that was not filled in are not. -/
theorem freePhdrs_unset (w : Nat) (phdrs : List Bytes) (slots : List PhdrSlot) :
    freePhdrs w (phdrs.map .header ++ .unset :: slots) = .error .uninitialized := by
  induction phdrs with
  | nil => rfl
  | cons phdr phdrs ih =>
      rw [List.map_cons, List.cons_append, freePhdrs, ih]
      rfl

theorem mem_closeHandles {w : Nat} {handles : List (BitVec w)} {release : Release w} :
    release ∈ closeHandles handles ↔ ∃ handle ∈ handles, handle ≠ 0 ∧ release = .dlclose handle := by
  rw [closeHandles, List.mem_filterMap]
  constructor
  · rintro ⟨handle, hmem, hrelease⟩
    by_cases hzero : handle = 0
    · rw [if_pos hzero] at hrelease
      cases hrelease
    · rw [if_neg hzero] at hrelease
      cases hrelease
      exact ⟨handle, hmem, hzero, rfl⟩
  · rintro ⟨handle, hmem, hzero, rfl⟩
    exact ⟨handle, hmem, if_neg hzero⟩

theorem mem_handlesBlock {w : Nat} {handles : List (BitVec w)} {block : Block}
    (h : block ∈ handlesBlock handles) : block = .dlHandles ∧ handles ≠ [] := by
  rw [handlesBlock] at h
  split_ifs at h with hnil
  · cases h
  · exact ⟨List.mem_singleton.mp h, hnil⟩

section Exits

variable {sys : System cls} {input : Input cls} {m : Memory cls.bits} {leaf : LeafObject cls.bits}

theorem not_freesSafely_of_error {fault : Fault} {opened : List (BitVec cls.bits)}
    (h : leafFree m leaf = .error fault) : ¬ FreesSafely sys input opened m leaf := by
  rintro ⟨releases, hok, _⟩
  rw [h] at hok
  cases hok

/-- Without an array of program headers the loop over it starts at `NULL`. -/
theorem leafFree_of_no_phdrs (h : leaf.phdrs = none) : leafFree m leaf = .error .nullDeref := by
  rw [leafFree, h]
  rfl

/-- With some of the headers the loop gets to a slot that was not filled in. -/
theorem leafFree_of_slots {n k : Nat} (h : leaf.phdrs = some (input.slots n k)) (hk : k < n) :
    leafFree m leaf = .error .uninitialized := by
  obtain ⟨rest, hrest⟩ : ∃ rest, n - k = rest + 1 := ⟨n - k - 1, by omega⟩
  have hslots : input.slots n k = ((List.range k).map input.phdr).map .header ++
      .unset :: (List.replicate rest .unset ++ [.null]) := by
    rw [Input.slots, hrest, List.replicate_succ, List.map_map, List.append_assoc]
    rfl
  rw [leafFree, h, hslots]
  simp only [freePhdrs_unset]
  rfl

/-- With all of the headers it is the handles that matter. -/
theorem freesSafely_of_allSlots (h : leaf.phdrs = some input.allSlots) (hfini : leaf.finiCount = 0)
    (hmunmap : Unmaps leaf.blob leaf.blobLength → sys.mmap leaf.blobLength = some leaf.blob) :
    FreesSafely sys input [] m leaf ↔ ∀ handle ∈ leaf.dlHandles, handle = 0 := by
  have hfree : leafFree m leaf = .ok (closeHandles leaf.dlHandles ++
      (handlesBlock leaf.dlHandles).map .free ++
        ((List.range input.phnum).map input.phdr).map (fun phdr => .free (.phdr phdr)) ++
          [.free .phdrs, .munmap leaf.blob leaf.blobLength, .free .object]) := by
    have hslots : input.allSlots =
        ((List.range input.phnum).map input.phdr).map .header ++ [.null] := by
      rw [Input.allSlots, List.map_map]
      rfl
    have hfinish : leafFinish m leaf = [] := by rw [leafFinish, hfini]; rfl
    rw [leafFree, h, hslots, hfinish]
    simp only [freePhdrs_headers]
    rfl
  constructor
  · rintro ⟨releases, hok, hproper⟩ handle hmem
    cases hok.symm.trans hfree
    by_contra hzero
    -- the handle is closed, and none was opened
    have hclose : Release.dlclose handle ∈ closeHandles leaf.dlHandles :=
      mem_closeHandles.mpr ⟨handle, hmem, hzero, rfl⟩
    have hopened := hproper _ (List.mem_append_left _
      (List.mem_append_left _ (List.mem_append_left _ hclose)))
    exact absurd hopened (List.not_mem_nil)
  · intro hzero
    refine ⟨_, hfree, ?_⟩
    intro release hmem
    rw [List.mem_append, List.mem_append, List.mem_append, mem_closeHandles] at hmem
    rcases hmem with ((⟨handle, hhandle, hne, _⟩ | hblock) | hfreed) | hrest
    · exact absurd (hzero handle hhandle) hne
    · rcases List.mem_map.mp hblock with ⟨block, hmem, rfl⟩
      rcases mem_handlesBlock hmem with ⟨rfl, hne⟩
      exact hne
    · rw [List.map_map, List.mem_map] at hfreed
      rcases hfreed with ⟨i, hi, rfl⟩
      exact ⟨i, List.mem_range.mp hi, rfl⟩
    · simp only [List.mem_cons, List.not_mem_nil, or_false] at hrest
      rcases hrest with rfl | rfl | rfl
      · intro hnone
        rw [h] at hnone
        cases hnone
      · exact hmunmap
      · trivial

/-- `munmap` refuses `MAP_FAILED`. -/
theorem not_unmaps_mapFailed (cls : ElfClass) (length : Nat) :
    ¬ Unmaps (mapFailed cls.bits) length := by
  rintro ⟨hpage, _⟩
  revert hpage
  cases cls with
  | elf32 => decide
  | elf64 => decide

end Exits

theorem mem_neededNames {w : Nat} {dyns : List LeafDyn} {name : BitVec w} :
    name ∈ neededNames w dyns ↔
      ∃ dyn ∈ dyns, dyn.dTag = .needed ∧ BitVec.ofNat w dyn.dVal = name := by
  rw [neededNames, List.mem_map]
  simp [LeafDyn.hasTag, and_assoc]

/-- The names of the entries are all zero when their values are. -/
theorem neededNames_zero_iff {input : Input cls} {pos : Nat} {dyns : List LeafDyn}
    (h : DynsAt input pos dyns) :
    (∀ name ∈ neededNames cls.bits dyns, name = 0) ↔
      ∀ dyn ∈ dyns, dyn.dTag = .needed → dyn.dVal = 0 := by
  constructor
  · intro hnames dyn hmem hneeded
    have hzero := hnames _ (mem_neededNames.mpr ⟨dyn, hmem, hneeded, rfl⟩)
    have hmod := congrArg BitVec.toNat hzero
    rw [BitVec.toNat_ofNat, Nat.mod_eq_of_lt (h.dVal_lt dyn hmem)] at hmod
    exact hmod.trans (by simp)
  · intro hzero name hname
    rcases mem_neededNames.mp hname with ⟨dyn, hmem, hneeded, rfl⟩
    rw [hzero dyn hmem hneeded]
    rfl

/-- Linking does not return error strings. -/
theorem loadDynamic_of_leafLoadFromBuffer {platform : Platform} {sys : System platform.cls}
    {linker : Linker platform.cls.bits} {input : Input platform.cls}
    {leaf leaf' : LeafObject platform.cls.bits} {error : String}
    (h : leafLoadFromBuffer platform sys linker input leaf = fail error leaf') :
    loadDynamic sys input leaf = .error (.returned error leaf') := by
  rw [leafLoadFromBuffer] at h
  cases hload : loadDynamic sys input leaf with
  | error stop =>
      rw [hload, error_bind, fail] at h
      cases h
      rfl
  | ok result =>
      rcases result with ⟨image, scan⟩
      rw [hload, ok_bind] at h
      simp only [] at h
      cases hlink : linkDynamic platform linker image scan with
      | ok linked =>
          rw [hlink] at h
          cases h
      | error fault =>
          rw [hlink] at h
          cases h

theorem leafLoadFromBuffer_of_returned {platform : Platform} {sys : System platform.cls}
    {linker : Linker platform.cls.bits} {input : Input platform.cls}
    {leaf leaf' : LeafObject platform.cls.bits} {error : String}
    (h : loadDynamic sys input leaf = .error (.returned error leaf')) :
    leafLoadFromBuffer platform sys linker input leaf = fail error leaf' := by
  rw [leafLoadFromBuffer, h]
  rfl

end

/-- After an error string the object can be freed exactly when all headers were read and there is no
name of a library. -/
theorem freesSafely_iff (platform : Platform) (sys : System platform.cls)
    (linker : Linker platform.cls.bits) (input : Input platform.cls) (error : String)
    (leaf : LeafObject platform.cls.bits)
    (h : leafLoadFromBuffer platform sys linker input (leafInit _) = fail error leaf)
    (m : Memory platform.cls.bits) :
    FreesSafely sys input [] m leaf ↔ CanBeFreed sys input := by
  have hload := loadDynamic_of_leafLoadFromBuffer h
  have houtcome := loadDynamic_outcome sys input (leafInit _)
  rw [hload] at houtcome
  cases houtcome with
  | noArray error ehdr hmade =>
      refine iff_of_false (not_freesSafely_of_error (leafFree_of_no_phdrs rfl)) fun hfreed => ?_
      exact hmade hfreed.headers.1
  | notRead error k hread hk hwraps =>
      refine iff_of_false (not_freesSafely_of_error (leafFree_of_slots rfl hk)) fun hfreed => ?_
      exact hread hfreed.headers
  | notMapped error hread hsizes hmap =>
      rw [freesSafely_of_allSlots rfl rfl fun hunmaps =>
        absurd hunmaps (not_unmaps_mapFailed _ _)]
      refine iff_of_true (by simp [Input.mapped, leafInit]) ⟨hread, ?_⟩
      intro base pos dyns hmapped
      exact absurd (hmap.symm.trans hmapped.2) (by simp)
  | noDyns error base hmapped hsizes hsafe hdyns =>
      rw [freesSafely_of_allSlots rfl rfl fun _ => hmapped.2]
      refine iff_of_true (by simp [Input.mapped, leafInit]) ⟨hmapped.1, ?_⟩
      intro base' pos dyns _ hpos
      exact absurd hpos (hdyns pos)
  | missing error base pos dyns hmapped hsizes hsafe hpos hat hthere =>
      rw [freesSafely_of_allSlots rfl rfl fun _ => hmapped.2]
      -- the handles are the names of the entries
      change (∀ name ∈ [] ++ neededNames platform.cls.bits dyns, name = 0) ↔ _
      rw [List.nil_append, neededNames_zero_iff hat]
      constructor
      · intro hnames
        refine ⟨hmapped.1, ?_⟩
        intro base' pos' dyns' _ hpos' hat'
        rw [← hpos.unique hpos'] at hat'
        rw [← hat.unique hat']
        exact hnames
      · intro hfreed
        exact hfreed.names base pos dyns hmapped hpos hat

/-- A file with one of its two program headers. -/
def Sample.oneHeader : Input .elf32 where
  contents := 0x8000
  bytes := Sample.ehdr 32 2 ++ Sample.phdr 1 0 0 8 8
  length_lt := by decide +kernel

theorem Sample.oneHeader_load : ∃ k, k < 2 ∧
    leafLoadFromBuffer .i386 Sample.system Sample.linker Sample.oneHeader (leafInit _) =
      fail "Failed to read a program header"
        { leafInit _ with
          ehdr := some Sample.oneHeader.ehdr
          phdrs := some (Sample.oneHeader.slots 2 k) } := by
  have hphnum : Sample.oneHeader.phnum = 2 := by decide +kernel
  have hheader : HeaderOk Sample.system Sample.oneHeader :=
    ⟨⟨rfl, by decide +kernel⟩, by decide +kernel⟩
  rcases loadSegments_of_not_read (leafInit _) hheader rfl (by decide +kernel) with ⟨k, hk, hload⟩
  rw [hphnum] at hk hload
  have hfail := loadDynamic_of_fail (hload.trans (if_neg (by decide +kernel)))
  exact ⟨k, hk, leafLoadFromBuffer_of_returned hfail⟩

/-- The second slot is not filled in, and is used as a pointer. -/
theorem oneHeader_not_freesSafely : ∃ error leaf,
    leafLoadFromBuffer .i386 Sample.system Sample.linker Sample.oneHeader (leafInit _) =
        fail error leaf ∧
      ∀ m, leafFree m leaf = .error .uninitialized ∧
        ¬ FreesSafely Sample.system Sample.oneHeader [] m leaf := by
  rcases Sample.oneHeader_load with ⟨k, hk, hload⟩
  refine ⟨_, _, hload, fun m => ?_⟩
  have hfree : leafFree m { leafInit _ with
      ehdr := some Sample.oneHeader.ehdr
      phdrs := some (Sample.oneHeader.slots 2 k) } = .error .uninitialized :=
    leafFree_of_slots rfl hk
  exact ⟨hfree, not_freesSafely_of_error hfree⟩

/-- The file is not one after which the object can be freed. -/
theorem freesSafely_iff_oneHeader : ∃ leaf, ∀ m,
    FreesSafely Sample.system Sample.oneHeader [] m leaf ↔
      CanBeFreed Sample.system Sample.oneHeader := by
  rcases Sample.oneHeader_load with ⟨k, _, hload⟩
  exact ⟨_, freesSafely_iff .i386 Sample.system Sample.linker Sample.oneHeader _ _ hload⟩

end AndrLeaf
end KnShim
