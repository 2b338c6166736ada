import KnShim.AndrLeaf.Load

/-!
# AndrLeaf.Link — linking the loaded object

The rest of `LeafLoadFromBuffer`: the libraries that the object needs are opened, the symbol table
is fixed up in place, both relocation tables are applied, and the init functions are called.
Everything is in the memory of the process, so tables and places may overlap here.

The dynamic linker of the system and the functions of the object are parameters.  The use of a
local variable that was never assigned is a fault, and so is a division by zero.
-/

namespace KnShim
namespace AndrLeaf

open Lib Load

/-! ## The symbol table in memory -/

/-- The string at an address; memory without any NUL is one string. -/
def cstringAt {w : Nat} (m : Memory w) (a : BitVec w) : CString :=
  CString.upToNul (m.read a (2 ^ w))

/-- `strcmp(...) == 0` of the string at an address. -/
def strcmpAt {w : Nat} (m : Memory w) (a : BitVec w) (name : CString) : Bool :=
  m.read a (name.length + 1) = name.bytes ++ [0]

section Symbols

variable {cls : ElfClass}

/-- `&symtab[i]`. -/
def symAt (symtab : BitVec cls.bits) (i : Nat) : BitVec cls.bits :=
  symtab + BitVec.ofNat _ (i * LeafSym.size cls)

/-- `symtab[i].st_value`. -/
def stValue (m : Memory cls.bits) (symtab : BitVec cls.bits) (i : Nat) : BitVec cls.bits :=
  BitVec.ofNat _ ((LeafSym.stValueField cls).load m (symAt symtab i))

/-- `strtab + symtab[i].st_name`. -/
def stNameAt (m : Memory cls.bits) (strtab symtab : BitVec cls.bits) (i : Nat) : BitVec cls.bits :=
  strtab + BitVec.ofNat _ (LeafSym.stNameField.load m (symAt symtab i))

/-- A store of a pointer or a `size_t`. -/
def storeWord (m : Memory cls.bits) (a v : BitVec cls.bits) : Memory cls.bits :=
  m.write a (toLE cls.wordBytes v.toNat)

/-- A load of a pointer or a `size_t`. -/
def loadWord (m : Memory cls.bits) (a : BitVec cls.bits) : BitVec cls.bits :=
  BitVec.ofNat _ (ofLE (m.read a cls.wordBytes))

/-- `symtab[i].st_value = v`. -/
def setValue (m : Memory cls.bits) (symtab : BitVec cls.bits) (i : Nat) (v : BitVec cls.bits) :
    Memory cls.bits :=
  storeWord m (symAt symtab i + BitVec.ofNat _ (LeafSym.stValueField cls).start) v

/-- `LeafSymbolInfo`, as an index. -/
def leafSymbolInfo (m : Memory cls.bits) (strtab symtab : BitVec cls.bits) (symCount : Nat)
    (name : CString) : Option Nat :=
  (List.range symCount).find? fun i => strcmpAt m (stNameAt m strtab symtab i) name

end Symbols

/-! ## The fix-up of the symbol table -/

/-- The dynamic linker of the system, the address of `Leaf__cxa_atexit` and what calls do. -/
structure Linker (w : Nat) where
  dlopen : CString → BitVec w
  dlsym : BitVec w → CString → BitVec w
  leafCxaAtexit : BitVec w
  call : BitVec w → Memory w → Memory w

section Fixup

variable {cls : ElfClass} (linker : Linker cls.bits)

/-- The loop over the handles: the answer of the first one that defines the name. -/
def resolve (handles : List (BitVec cls.bits)) (name : CString) : Option (BitVec cls.bits) :=
  handles.findSome? fun handle =>
    if handle = 0 ∨ linker.dlsym handle name = 0 then none else some (linker.dlsym handle name)

/-- One round of the loop over the symbol table. -/
def fixSymbol (blob strtab symtab : BitVec cls.bits) (handles : List (BitVec cls.bits))
    (m : Memory cls.bits) (i : Nat) : Memory cls.bits :=
  let shndx := (LeafSym.stShndxField cls).load m (symAt symtab i)
  if shndx = shnAbs then
    m
  else if shndx = shnCommon then
    m
  else if shndx = shnUndef then
    match resolve linker handles (cstringAt m (stNameAt m strtab symtab i)) with
    | some symbolValue => setValue m symtab i symbolValue
    | none => m
  else
    setValue m symtab i (stValue m symtab i + blob)

/-- The loop over the symbol table, which leaves out the first entry. -/
def fixSymbols (blob strtab symtab : BitVec cls.bits) (handles : List (BitVec cls.bits))
    (symCount : Nat) (m : Memory cls.bits) : Memory cls.bits :=
  (List.range' 1 (symCount - 1)).foldl (fixSymbol linker blob strtab symtab handles) m

/-- `__cxa_atexit` -/
def cxaAtexit : CString where
  bytes := [0x5f, 0x5f, 0x63, 0x78, 0x61, 0x5f, 0x61, 0x74, 0x65, 0x78, 0x69, 0x74]
  noNul := by decide

/-- `__aeabi_atexit` -/
def aeabiAtexit : CString where
  bytes := [0x5f, 0x5f, 0x61, 0x65, 0x61, 0x62, 0x69, 0x5f, 0x61, 0x74, 0x65, 0x78, 0x69, 0x74]
  noNul := by decide

/-- A symbol that was found is replaced with the stub. -/
def replaceSymbol (symtab : BitVec cls.bits) (m : Memory cls.bits) :
    Option Nat → Memory cls.bits
  | none => m
  | some i => setValue m symtab i linker.leafCxaAtexit

/-- Both symbols are looked up, and then replaced. -/
def replaceAtexit (strtab symtab : BitVec cls.bits) (symCount : Nat) (m : Memory cls.bits) :
    Memory cls.bits :=
  let cxa := leafSymbolInfo m strtab symtab symCount cxaAtexit
  let aeabi := leafSymbolInfo m strtab symtab symCount aeabiAtexit
  replaceSymbol linker symtab (replaceSymbol linker symtab m cxa) aeabi

end Fixup

/-! ## Relocations -/

section Relocations

variable (platform : Platform)

/-- One round of `LeafDoRela`. -/
def relaStep (blob symtab relocs : BitVec platform.cls.bits) (m : Memory platform.cls.bits)
    (i : Nat) : Memory platform.cls.bits :=
  let rela := relocs + BitVec.ofNat _ (i * LeafRela.size platform.cls)
  let info := (LeafRela.rInfo platform.cls).load m rela
  let place := blob + BitVec.ofNat _ ((LeafRela.rOffset platform.cls).load m rela)
  let addend := BitVec.ofNat _ ((LeafRela.rAddend platform.cls).load m rela)
  let sym := leafRelocSym platform.cls info
  match platform.relaKind (leafRelocType platform.cls info) with
  | .relative => storeWord m place (blob + addend)
  | .globDat => storeWord m place (stValue m symtab sym + addend)
  | .jumpSlot => storeWord m place (stValue m symtab sym + addend)
  | .other => m

/-- `LeafDoRela`. -/
def leafDoRela (blob symtab relocs : BitVec platform.cls.bits) (relocCount : Nat)
    (m : Memory platform.cls.bits) : Memory platform.cls.bits :=
  (List.range relocCount).foldl (relaStep platform blob symtab relocs) m

/-- The two statements of `R_ARM_GLOB_DAT`. -/
def armGlobDat {cls : ElfClass} (symtab place : BitVec cls.bits) (sym : Nat)
    (m : Memory cls.bits) : Memory cls.bits :=
  let s := stValue m symtab sym
  let m := storeWord m place (loadWord m place + if s &&& 1 ≠ 0 then s ^^^ 1 else s)
  let thumb := leafSymType ((LeafSym.stInfoField cls).load m (symAt symtab sym)) = sttFunc ∧
    stValue m symtab sym &&& 1 ≠ 0
  storeWord m place (loadWord m place ||| if thumb then 1 else 0)

/-- One round of `LeafDoRel`. -/
def relStep (blob symtab relocs : BitVec platform.cls.bits) (m : Memory platform.cls.bits)
    (i : Nat) : Memory platform.cls.bits :=
  let rel := relocs + BitVec.ofNat _ (i * LeafRela.relSize platform.cls)
  let info := (LeafRela.rInfo platform.cls).load m rel
  let place := blob + BitVec.ofNat _ ((LeafRela.rOffset platform.cls).load m rel)
  let sym := leafRelocSym platform.cls info
  match platform.relKind (leafRelocType platform.cls info) with
  | .relative => storeWord m place (blob + loadWord m place)
  | .globDat =>
      if platform = .arm then
        armGlobDat symtab place sym m
      else
        storeWord m place (stValue m symtab sym)
  | .jumpSlot => storeWord m place (stValue m symtab sym)
  | .other => m

/-- `LeafDoRel`. -/
def leafDoRel (blob symtab relocs : BitVec platform.cls.bits) (relocCount : Nat)
    (m : Memory platform.cls.bits) : Memory platform.cls.bits :=
  (List.range relocCount).foldl (relStep platform blob symtab relocs) m

end Relocations

/-! ## The rest of `LeafLoadFromBuffer` -/

/-- The use of a local variable. -/
def useLocal {α : Type} : Option α → Fallible α
  | some a => .ok a
  | none => .error .uninitialized

/-- A division of `size_t`s. -/
def divide (a b : Nat) : Fallible Nat := if b = 0 then .error .killed else .ok (a / b)

section Rest

variable {cls : ElfClass}

/-- What the scan has found is saved, and the names of the needed libraries are corrected. -/
def saveDynamic (image : Image cls) (scan : Scan cls.bits) : Fallible (Image cls) := do
  let finiArraySize ← useLocal scan.finiArraySize
  return { image with
    leaf := { image.leaf with
      strtab := scan.strtab
      symtab := scan.symtab
      symCount := scan.symCount
      finiArray := scan.finiArray
      finiCount := finiArraySize / cls.wordBytes
      dlHandles := image.leaf.dlHandles.map fun name => name + scan.strtab } }

/-- The needed libraries are opened. -/
def openNeeded (linker : Linker cls.bits) (image : Image cls) : Image cls :=
  { image with
    leaf := { image.leaf with
      dlHandles := image.leaf.dlHandles.map fun name =>
        linker.dlopen (cstringAt image.memory name) } }

/-- How many relocations there are in both tables. -/
structure RelocCounts where
  relocCount : Nat
  pltRelocCount : Nat
  deriving DecidableEq, Repr

/-- The counts of the relocations. -/
def relocCounts (scan : Scan cls.bits) : Fallible RelocCounts := do
  let relocSize ← useLocal scan.relocSize
  let relocEntSize ← useLocal scan.relocEntSize
  let relocCount ← divide relocSize relocEntSize
  let pltRelocsSize ← useLocal scan.pltRelocsSize
  let pltRelocCount ← divide pltRelocsSize relocEntSize
  return ⟨relocCount, pltRelocCount⟩

/-- The fix-up of the symbol table and the replacements. -/
def linkSymbols (linker : Linker cls.bits) (leaf : LeafObject cls.bits) (m : Memory cls.bits) :
    Memory cls.bits :=
  replaceAtexit linker leaf.strtab leaf.symtab leaf.symCount
    (fixSymbols linker leaf.blob leaf.strtab leaf.symtab leaf.dlHandles leaf.symCount m)

/-- Both tables of relocations are applied, as the type of the PLT relocations says. -/
def relocate (platform : Platform) (leaf : LeafObject platform.cls.bits)
    (scan : Scan platform.cls.bits) (counts : RelocCounts) (relocTypes : Nat)
    (m : Memory platform.cls.bits) : Memory platform.cls.bits :=
  if relocTypes = dtRela then
    leafDoRela platform leaf.blob leaf.symtab scan.pltRelocs counts.pltRelocCount
      (leafDoRela platform leaf.blob leaf.symtab scan.relocs counts.relocCount m)
  else
    leafDoRel platform leaf.blob leaf.symtab scan.pltRelocs counts.pltRelocCount
      (leafDoRel platform leaf.blob leaf.symtab scan.relocs counts.relocCount m)

/-- One round of the loop that calls the init functions. -/
def callInit (linker : Linker cls.bits) (initArray : BitVec cls.bits) (m : Memory cls.bits)
    (i : Nat) : Memory cls.bits :=
  let func := loadWord m (initArray + BitVec.ofNat _ (i * cls.wordBytes))
  if func = 0 then m else linker.call func m

/-- What a loaded object is: the object, its memory, and the numbers that were computed. -/
structure Linked (cls : ElfClass) where
  leaf : LeafObject cls.bits
  memory : Memory cls.bits
  counts : RelocCounts
  relocTypes : Nat
  initCount : Nat

/-- From the checks to the end of `LeafLoadFromBuffer`. -/
def linkDynamic (platform : Platform) (linker : Linker platform.cls.bits)
    (image : Image platform.cls) (scan : Scan platform.cls.bits) :
    Fallible (Linked platform.cls) := do
  let image := openNeeded linker (← saveDynamic image scan)
  let memory := linkSymbols linker image.leaf image.memory
  let counts ← relocCounts scan
  let relocTypes ← useLocal scan.relocTypes
  let memory := relocate platform image.leaf scan counts relocTypes memory
  let initArraySize ← useLocal scan.initArraySize
  let initCount := initArraySize / platform.cls.wordBytes
  let memory := (List.range initCount).foldl (callInit linker scan.initArray) memory
  return {
    leaf := image.leaf
    memory := memory
    counts := counts
    relocTypes := relocTypes
    initCount := initCount }

/-- `LeafLoadFromBuffer`; a run that is not stopped returns `NULL`. -/
def leafLoadFromBuffer (platform : Platform) (sys : System platform.cls)
    (linker : Linker platform.cls.bits) (input : Input platform.cls)
    (leaf : LeafObject platform.cls.bits) : Load platform.cls.bits (Linked platform.cls) := do
  let (image, scan) ← loadDynamic sys input leaf
  attempt _ (linkDynamic platform linker image scan)

end Rest

/-- A dynamic linker that opens every library and finds no symbol. -/
def Sample.linker : Linker 32 where
  dlopen := fun _ => 1
  dlsym := fun _ _ => 0
  leafCxaAtexit := 0x1000
  call := fun _ m => m

end AndrLeaf
end KnShim
