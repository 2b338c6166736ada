import KnShim.AndrLeaf.Elf

/-!
# AndrLeaf.Load — loading a shared object from a buffer

`LeafLoadFromBuffer` up to its checks for missing dynamic entries: it reads the headers, maps the
memory of the segments, copies them and scans the dynamic section.  The model takes the buffer as
given by its caller and what the system answers as parameters; `malloc` of the stream and `realloc`
of the handles, which the code does not check, are taken to succeed.

A run stops with a fault, or by returning an error string, in which case the half-built object is
part of the result, because `LeafFree` gets to see it.
-/

namespace KnShim
namespace AndrLeaf

open Lib

/-! ## The stream -/

/-- The buffer that is loaded; no object is larger than `PTRDIFF_MAX`. -/
structure Input (cls : ElfClass) where
  contents : BitVec cls.bits
  bytes : Bytes
  length_lt : bytes.length < 2 ^ (cls.bits - 1)

variable {cls : ElfClass}

/-- `LeafStream`; its size is that of the buffer. -/
structure LeafStream (cls : ElfClass) where
  input : Input cls
  pos : Nat

/-- `LeafStreamInit`. -/
def leafStreamInit (input : Input cls) : LeafStream cls := ⟨input, 0⟩

/-- `LeafStreamSetpos`. -/
def leafStreamSetpos (stream : LeafStream cls) (pos : Nat) : LeafStream cls :=
  { stream with pos := pos }

/-- The test of both read functions, in the arithmetic of `size_t`. -/
def LeafStream.exceeds (stream : LeafStream cls) (count : Nat) : Prop :=
  stream.input.bytes.length < (stream.pos + count) % 2 ^ cls.bits

instance (stream : LeafStream cls) (count : Nat) : Decidable (stream.exceeds count) :=
  inferInstanceAs (Decidable (_ < _))

/-- `LeafStreamReadInto`, with the bytes that it copies. -/
def leafStreamReadInto (stream : LeafStream cls) (count : Nat) :
    Fallible (Option Bytes × LeafStream cls) :=
  if stream.exceeds count then
    .ok (none, stream)
  else do
    let data ← readSlice stream.input.bytes stream.pos count
    return (some data, leafStreamSetpos stream ((stream.pos + count) % 2 ^ cls.bits))

/-- `LeafStreamRead`, with the answer of `malloc`. -/
def leafStreamRead (malloc : Bool) (stream : LeafStream cls) (count : Nat) :
    Fallible (Option Bytes × LeafStream cls) :=
  if stream.exceeds count then
    .ok (none, stream)
  else if malloc then
    leafStreamReadInto stream count
  else
    .ok (none, stream)

/-! ## The object -/

/-- An element of the `phdrs` array. -/
inductive PhdrSlot where
  | unset
  | null
  | header (phdr : Bytes)
  deriving DecidableEq, Repr

/-- A `Leaf` of the memory that it is loaded into. -/
structure LeafObject (w : Nat) where
  ehdr : Option Bytes
  phdrs : Option (List PhdrSlot)
  blob : BitVec w
  blobLength : Nat
  dlHandles : List (BitVec w)
  strtab : BitVec w
  symtab : BitVec w
  symCount : Nat
  finiArray : BitVec w
  finiCount : Nat
  deriving DecidableEq, Repr

/-- `LeafInit`. -/
def leafInit (w : Nat) : LeafObject w where
  ehdr := none
  phdrs := none
  blob := 0
  blobLength := 0
  dlHandles := []
  strtab := 0
  symtab := 0
  symCount := 0
  finiArray := 0
  finiCount := 0

namespace LeafObject

variable {w : Nat}

/-- `self->phdrs[i]`, where it is used as a header. -/
def phdr (leaf : LeafObject w) (i : Nat) : Fallible Bytes :=
  match leaf.phdrs with
  | none => .error .nullDeref
  | some slots =>
      match slots[i]? with
      | none => .error .outOfBounds
      | some .unset => .error .uninitialized
      | some .null => .error .nullDeref
      | some (.header phdr) => .ok phdr

/-- `self->phdrs[i] = phdr`. -/
def setPhdr (leaf : LeafObject w) (i : Nat) (phdr : Bytes) : LeafObject w :=
  { leaf with phdrs := leaf.phdrs.map fun slots => slots.set i (.header phdr) }

end LeafObject

/-! ## What the system answers -/

/-- The system: `malloc` for each block, `mmap` for each size and the text of its error. -/
structure System (cls : ElfClass) where
  memory : Memory cls.bits
  mallocEhdr : Bool
  mallocPhdrs : Bool
  mallocPhdr : Nat → Bool
  mmap : Nat → Option (BitVec cls.bits)
  strerror : String
  mmap_valid : ∀ size base, mmap size = some base →
    size ≠ 0 ∧ base ≠ 0 ∧ base.toNat % 4096 = 0 ∧ base.toNat + size ≤ 2 ^ cls.bits

/-- `MAP_FAILED`. -/
def mapFailed (w : Nat) : BitVec w := BitVec.allOnes w

/-- How a run of `LeafLoadFromBuffer` ends early. -/
inductive Stop (w : Nat) where
  | fault (fault : Fault)
  | returned (error : String) (leaf : LeafObject w)
  deriving DecidableEq, Repr

abbrev Load (w : Nat) (α : Type) : Type := Except (Stop w) α

namespace Load

variable {w : Nat} {α β : Type}

/-- A computation that may go wrong, as a part of a run. -/
def attempt (w : Nat) : Fallible α → Load w α
  | .ok a => .ok a
  | .error fault => .error (.fault fault)

/-- `return error;` -/
def fail (error : String) (leaf : LeafObject w) : Load w α := .error (.returned error leaf)

@[simp] theorem attempt_ok (a : α) : attempt w (.ok a) = .ok a := rfl

@[simp] theorem ok_bind (a : α) (f : α → Load w β) : ((Except.ok a : Load w α) >>= f) = f a := rfl

@[simp] theorem error_bind (stop : Stop w) (f : α → Load w β) :
    ((Except.error stop : Load w α) >>= f) = .error stop := rfl

@[simp] theorem pure_eq (a : α) : (pure a : Load w α) = .ok a := rfl

end Load

open Load

/-! ## The headers -/

/-- The checks of the ELF header. -/
def checkEhdr (cls : ElfClass) (ehdr : Bytes) : Option String :=
  if ehdr.take 4 ≠ elfSignature then
    some "Invalid ELF file"
  else if LeafEhdr.eiClass.value ehdr ≠ cls.current then
    some "Incorrect binary class for this platform"
  else if LeafEhdr.eiData.value ehdr ≠ 1 then
    some "Big endian is not supported"
  else if LeafEhdr.eiVersion.value ehdr ≠ 1 then
    some "Too new or invalid ELF version"
  else if LeafEhdr.eType.value ehdr ≠ etDyn then
    some "Only loading shared objects is supported"
  else
    none

/-- The ELF header is read and checked. -/
def readEhdr (sys : System cls) (input : Input cls) (leaf : LeafObject cls.bits) :
    Load cls.bits (Bytes × LeafStream cls × LeafObject cls.bits) := do
  let (ehdr, stream) ←
    attempt _ (leafStreamRead sys.mallocEhdr (leafStreamInit input) (LeafEhdr.size cls))
  let leaf := { leaf with ehdr := ehdr }
  match ehdr with
  | none => fail "Failed to read header" leaf
  | some ehdr =>
      match checkEhdr cls ehdr with
      | some error => fail error leaf
      | none => return (ehdr, stream, leaf)

/-- One round of the loop that reads the program headers. -/
def readPhdr (sys : System cls) (phentsize : Nat) (state : LeafStream cls × LeafObject cls.bits)
    (i : Nat) : Load cls.bits (LeafStream cls × LeafObject cls.bits) := do
  let (phdr, stream) ← attempt _ (leafStreamRead (sys.mallocPhdr i) state.1 phentsize)
  match phdr with
  | none => fail "Failed to read a program header" state.2
  | some phdr => return (stream, state.2.setPhdr i phdr)

/-- The array of program headers is made and filled; the result has `phnum` too. -/
def readPhdrs (sys : System cls) (ehdr : Bytes) (stream : LeafStream cls)
    (leaf : LeafObject cls.bits) : Load cls.bits (Nat × LeafStream cls × LeafObject cls.bits) := do
  let phoff := (LeafEhdr.ePhoff cls).value ehdr
  let phentsize := (LeafEhdr.ePhentsize cls).value ehdr
  let phnum := (LeafEhdr.ePhnum cls).value ehdr
  if sys.mallocPhdrs then
    let slots := List.replicate phnum .unset ++ [.null]
    let (stream, leaf) ← (List.range phnum).foldlM (readPhdr sys phentsize)
      (leafStreamSetpos stream phoff, { leaf with phdrs := some slots })
    return (phnum, stream, leaf)
  else
    fail "Failed to alloc phdrs array" leaf

/-! ## The segments -/

/-- One round of the loop that finds the size of the mapping. -/
def nextHighest (leaf : LeafObject cls.bits) (highest i : Nat) : Fallible Nat := do
  let phdr ← leaf.phdr i
  if (← LeafPhdr.pType.read phdr) = ptLoad then
    let vaddr ← (LeafPhdr.pVaddr cls).read phdr
    let memsz ← (LeafPhdr.pMemsz cls).read phdr
    return (vaddr + memsz) % 2 ^ cls.bits
  else
    return highest

/-- What the copy loop changes; `dyns` is an offset into the buffer. -/
structure Copying (cls : ElfClass) where
  stream : LeafStream cls
  memory : Memory cls.bits
  dyns : Option Nat

/-- The destination of `LeafStreamReadInto` for a segment. -/
def copyInto (leaf : LeafObject cls.bits) (memory : Memory cls.bits) (vaddr : Nat) (data : Bytes) :
    Fallible (Memory cls.bits) :=
  if data = [] ∨ vaddr + data.length ≤ leaf.blobLength then
    .ok (memory.write (leaf.blob + BitVec.ofNat _ vaddr) data)
  else
    .error .outOfBounds

/-- One round of the copy loop. -/
def copySegment (leaf : LeafObject cls.bits) (state : Copying cls) (i : Nat) :
    Fallible (Copying cls) := do
  let phdr ← leaf.phdr i
  let type ← LeafPhdr.pType.read phdr
  if type = ptLoad then
    let stream := leafStreamSetpos state.stream (← (LeafPhdr.pOffset cls).read phdr)
    let filesz ← (LeafPhdr.pFilesz cls).read phdr
    let vaddr ← (LeafPhdr.pVaddr cls).read phdr
    let (data, stream) ← leafStreamReadInto stream filesz
    -- the result of the read is not looked at
    match data with
    | none => return { state with stream := stream }
    | some data =>
        return { state with
          stream := stream
          memory := ← copyInto leaf state.memory vaddr data }
  else if type = ptDynamic then
    let stream := leafStreamSetpos state.stream (← (LeafPhdr.pOffset cls).read phdr)
    return { state with
      stream := stream
      dyns := some stream.pos }
  else
    return state

/-- The object with its segments in memory. -/
structure Image (cls : ElfClass) where
  leaf : LeafObject cls.bits
  memory : Memory cls.bits
  dyns : Option Nat

/-- The mapping is made and the segments are copied. -/
def mapSegments (sys : System cls) (phnum : Nat) (stream : LeafStream cls)
    (leaf : LeafObject cls.bits) : Load cls.bits (Image cls) := do
  let highest ← attempt _ ((List.range phnum).foldlM (nextHighest leaf) 0)
  match sys.mmap highest with
  | none =>
      fail sys.strerror { leaf with
        blob := mapFailed _
        blobLength := highest }
  | some base =>
      let leaf := { leaf with
        blob := base
        blobLength := highest }
      let start : Copying cls :=
        { stream := stream, memory := sys.memory.zeros base highest, dyns := none }
      let copied ← attempt _ ((List.range phnum).foldlM (copySegment leaf) start)
      return { leaf := leaf, memory := copied.memory, dyns := copied.dyns }

/-- From the start of `LeafLoadFromBuffer` to the end of the copy loop. -/
def loadSegments (sys : System cls) (input : Input cls) (leaf : LeafObject cls.bits) :
    Load cls.bits (Image cls) := do
  let (ehdr, stream, leaf) ← readEhdr sys input leaf
  let (phnum, stream, leaf) ← readPhdrs sys ehdr stream leaf
  mapSegments sys phnum stream leaf

/-! ## The dynamic section -/

/-- The local variables of the scan; those without an initialiser are `Option`s. -/
@[ext] structure Scan (w : Nat) where
  dlHandles : List (BitVec w)
  strtab : BitVec w
  strtabSize : Option Nat
  relocTypes : Option Nat
  relocs : BitVec w
  relocSize : Option Nat
  relocEntSize : Option Nat
  pltRelocs : BitVec w
  pltRelocsSize : Option Nat
  symtab : BitVec w
  symCount : Nat
  symEntSize : Option Nat
  initArray : BitVec w
  initArraySize : Option Nat
  finiArray : BitVec w
  finiArraySize : Option Nat
  deriving DecidableEq, Repr

/-- The variables before the scan. -/
def Scan.start {w : Nat} (dlHandles : List (BitVec w)) : Scan w where
  dlHandles := dlHandles
  strtab := 0
  strtabSize := none
  relocTypes := none
  relocs := 0
  relocSize := none
  relocEntSize := none
  pltRelocs := 0
  pltRelocsSize := none
  symtab := 0
  symCount := 0
  symEntSize := none
  initArray := 0
  initArraySize := none
  finiArray := 0
  finiArraySize := none

section Entries

variable {w : Nat} (memory : Memory w) (blob : BitVec w)

/-- `((Elf32_Word *)(self->blob + d_ptr))[1]`, the number of chains of the hash table. -/
def hashChains (dPtr : Nat) : Nat := ofLE (memory.read (blob + BitVec.ofNat w dPtr + 4) 4)

/-- The cases of the scan. -/
def scanEntry (scan : Scan w) (dyn : LeafDyn) : Scan w :=
  let address := blob + BitVec.ofNat w dyn.dVal
  match dyn.dTag with
  | .needed => { scan with dlHandles := scan.dlHandles ++ [BitVec.ofNat w dyn.dVal] }
  | .pltRelSz => { scan with pltRelocsSize := some dyn.dVal }
  | .hash => { scan with symCount := hashChains memory blob dyn.dVal }
  | .strTab => { scan with strtab := address }
  | .symTab => { scan with symtab := address }
  | .rela => { scan with relocs := address }
  | .relaSz => { scan with relocSize := some dyn.dVal }
  | .relaEnt => { scan with relocEntSize := some dyn.dVal }
  | .strSz => { scan with strtabSize := some dyn.dVal }
  | .symEnt => { scan with symEntSize := some dyn.dVal }
  | .symbolic => scan
  | .rel => { scan with relocs := address }
  | .relSz => { scan with relocSize := some dyn.dVal }
  | .relEnt => { scan with relocEntSize := some dyn.dVal }
  | .bindNow => scan
  | .pltRel => { scan with relocTypes := some dyn.dVal }
  | .jmpRel => { scan with pltRelocs := address }
  | .initArray => { scan with initArray := address }
  | .finiArray => { scan with finiArray := address }
  | .initArraySz => { scan with initArraySize := some dyn.dVal }
  | .finiArraySz => { scan with finiArraySize := some dyn.dVal }
  | .null => scan
  | .other _ => scan

end Entries

/-- A member of a dynamic entry in the buffer. -/
def readWord (input : Input cls) (pos : Nat) : Fallible Nat := do
  let data ← readSlice input.bytes pos cls.wordBytes
  return ofLE data

/-- `dyns[i].d_tag`. -/
def readTag (input : Input cls) (pos : Nat) : Fallible DynTag := do
  return DynTag.ofNat (← readWord input pos)

/-- The loop of the scan, over no more than `fuel` entries.  The value is also read where only the
tag is used; the next tag is behind it. -/
def scanLoop (input : Input cls) (memory : Memory cls.bits) (blob : BitVec cls.bits) :
    Nat → Nat → Scan cls.bits → Fallible (Scan cls.bits)
  | 0, _, _ => .error .nonTermination
  | fuel + 1, pos, scan => do
      let dTag ← readTag input pos
      if dTag = .null then
        return scan
      else
        let dVal ← readWord input (pos + cls.wordBytes)
        scanLoop input memory blob fuel (pos + LeafDyn.size cls)
          (scanEntry memory blob scan ⟨dTag, dVal⟩)

/-- The checks for missing entries. -/
def Scan.check {w : Nat} (scan : Scan w) : Option String :=
  if scan.strtab = 0 then
    some "Could not find string table address"
  else if scan.relocs = 0 then
    some "Could not find relocs"
  else if scan.symtab = 0 then
    some "Could not find symbol table address"
  else if scan.pltRelocs = 0 then
    some "Could not find PLT relocs address"
  else if scan.initArray = 0 then
    some "Could not find init array address"
  else if scan.finiArray = 0 then
    some "Could not find fini array address"
  else if scan.symCount = 0 then
    some "Could not find number of symbols"
  else
    none

/-- The scan of the entries at an offset, and the checks. -/
def scanDynamic (input : Input cls) (image : Image cls) (pos : Nat) :
    Load cls.bits (Image cls × Scan cls.bits) := do
  -- there is no entry for each byte of the buffer
  let scan ← attempt _ (scanLoop input image.memory image.leaf.blob (input.bytes.length + 1) pos
    (Scan.start image.leaf.dlHandles))
  let leaf := { image.leaf with dlHandles := scan.dlHandles }
  match scan.check with
  | some error => fail error leaf
  | none => return ({ image with leaf := leaf }, scan)

/-- From the start of `LeafLoadFromBuffer` to the end of its checks. -/
def loadDynamic (sys : System cls) (input : Input cls) (leaf : LeafObject cls.bits) :
    Load cls.bits (Image cls × Scan cls.bits) := do
  let image ← loadSegments sys input leaf
  match image.dyns with
  | none => fail "Failed to find dynamic info" image.leaf
  | some pos =>
      -- `dyns` is a pointer, which may come out as `NULL`
      if input.contents + BitVec.ofNat _ pos = 0 then
        fail "Failed to find dynamic info" image.leaf
      else
        scanDynamic input image pos

end AndrLeaf
end KnShim
