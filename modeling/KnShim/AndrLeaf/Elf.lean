import KnShim.Lib.CString
import KnShim.Lib.Memory

/-!
# AndrLeaf.Elf — the structures of an ELF file

The loader is compiled for one of the two ELF classes, which fixes the width of addresses and where
the members of each structure are.  A block that was read from the file has as many bytes as its
header says, so access to a member is checked against the block.
-/

namespace KnShim
namespace AndrLeaf

open Lib

/-- The two ELF formats. -/
inductive ElfClass where
  | elf32
  | elf64
  deriving DecidableEq, Repr

namespace ElfClass

/-- The width of addresses and of `size_t`. -/
def bits : ElfClass → Nat
  | .elf32 => 32
  | .elf64 => 64

/-- The size of addresses, of `size_t` and of the two members of a dynamic entry. -/
def wordBytes : ElfClass → Nat
  | .elf32 => 4
  | .elf64 => 8

/-- `LEAF_CURRENT_CLASS`. -/
def current : ElfClass → Nat
  | .elf32 => 1
  | .elf64 => 2

end ElfClass

/-! ## Members of structures -/

/-- Where a member of a structure is. -/
structure Field where
  start : Nat
  size : Nat
  deriving DecidableEq, Repr

namespace Field

/-- The first offset behind the member. -/
def stop (f : Field) : Nat := f.start + f.size

/-- The number that the member holds in a block that is long enough. -/
def value (f : Field) (block : Bytes) : Nat := ofLE ((block.drop f.start).take f.size)

/-- Access to the member. -/
def read (f : Field) (block : Bytes) : Fallible Nat :=
  if f.stop ≤ block.length then .ok (f.value block) else .error .outOfBounds

/-- Access to the member of a structure in memory. -/
def load {w : Nat} (f : Field) (m : Memory w) (a : BitVec w) : Nat :=
  ofLE (m.read (a + BitVec.ofNat w f.start) f.size)

theorem read_of_le {f : Field} {block : Bytes} (h : f.stop ≤ block.length) :
    f.read block = .ok (f.value block) := if_pos h

theorem read_of_lt {f : Field} {block : Bytes} (h : block.length < f.stop) :
    f.read block = .error .outOfBounds := if_neg (Nat.not_le_of_lt h)

theorem value_lt (f : Field) (block : Bytes) : f.value block < 256 ^ f.size := by
  have hlen : ((block.drop f.start).take f.size).length ≤ f.size := List.length_take_le _ _
  exact lt_of_lt_of_le (ofLE_lt _) (Nat.pow_le_pow_right (by decide) hlen)

end Field

/-! ## `LeafEhdr` -/

namespace LeafEhdr

def size : ElfClass → Nat
  | .elf32 => 52
  | .elf64 => 64

def eiClass : Field := ⟨4, 1⟩
def eiData : Field := ⟨5, 1⟩
def eiVersion : Field := ⟨6, 1⟩
def eType : Field := ⟨16, 2⟩

def ePhoff : ElfClass → Field
  | .elf32 => ⟨28, 4⟩
  | .elf64 => ⟨32, 8⟩

def ePhentsize : ElfClass → Field
  | .elf32 => ⟨42, 2⟩
  | .elf64 => ⟨54, 2⟩

def ePhnum : ElfClass → Field
  | .elf32 => ⟨44, 2⟩
  | .elf64 => ⟨56, 2⟩

end LeafEhdr

/-- `ELF_SIGNATURE`. -/
def elfSignature : Bytes := [0x7f, 0x45, 0x4c, 0x46]

/-- `ET_DYN`. -/
def etDyn : Nat := 3

/-! ## `LeafPhdr` -/

namespace LeafPhdr

def size : ElfClass → Nat
  | .elf32 => 32
  | .elf64 => 56

def pType : Field := ⟨0, 4⟩

def pOffset : ElfClass → Field
  | .elf32 => ⟨4, 4⟩
  | .elf64 => ⟨8, 8⟩

def pVaddr : ElfClass → Field
  | .elf32 => ⟨8, 4⟩
  | .elf64 => ⟨16, 8⟩

def pFilesz : ElfClass → Field
  | .elf32 => ⟨16, 4⟩
  | .elf64 => ⟨32, 8⟩

def pMemsz : ElfClass → Field
  | .elf32 => ⟨20, 4⟩
  | .elf64 => ⟨40, 8⟩

end LeafPhdr

/-- `PT_LOAD`. -/
def ptLoad : Nat := 1

/-- `PT_DYNAMIC`. -/
def ptDynamic : Nat := 2

/-! ## `LeafDyn` -/

/-- The values of `d_tag` that the loader tells apart. -/
inductive DynTag where
  | null
  | needed
  | pltRelSz
  | hash
  | strTab
  | symTab
  | rela
  | relaSz
  | relaEnt
  | strSz
  | symEnt
  | symbolic
  | rel
  | relSz
  | relEnt
  | pltRel
  | jmpRel
  | bindNow
  | initArray
  | finiArray
  | initArraySz
  | finiArraySz
  | other (n : Nat)
  deriving DecidableEq, Repr

/-- `DT_NULL`, `DT_NEEDED` and so on. -/
def DynTag.ofNat : Nat → DynTag
  | 0 => .null
  | 1 => .needed
  | 2 => .pltRelSz
  | 4 => .hash
  | 5 => .strTab
  | 6 => .symTab
  | 7 => .rela
  | 8 => .relaSz
  | 9 => .relaEnt
  | 10 => .strSz
  | 11 => .symEnt
  | 16 => .symbolic
  | 17 => .rel
  | 18 => .relSz
  | 19 => .relEnt
  | 20 => .pltRel
  | 23 => .jmpRel
  | 24 => .bindNow
  | 25 => .initArray
  | 26 => .finiArray
  | 27 => .initArraySz
  | 28 => .finiArraySz
  | n => .other n

/-- `DT_RELA`, which is also a value of a `DT_PLTREL` entry. -/
def dtRela : Nat := 7

/-- A `LeafDyn`; `d_val` and `d_ptr` are the same member. -/
structure LeafDyn where
  dTag : DynTag
  dVal : Nat
  deriving DecidableEq, Repr

/-- Its size in the file. -/
def LeafDyn.size (cls : ElfClass) : Nat := 2 * cls.wordBytes

/-! ## `LeafSym` -/

namespace LeafSym

def size : ElfClass → Nat
  | .elf32 => 16
  | .elf64 => 24

def stNameField : Field := ⟨0, 4⟩

def stValueField : ElfClass → Field
  | .elf32 => ⟨4, 4⟩
  | .elf64 => ⟨8, 8⟩

def stInfoField : ElfClass → Field
  | .elf32 => ⟨12, 1⟩
  | .elf64 => ⟨4, 1⟩

def stShndxField : ElfClass → Field
  | .elf32 => ⟨14, 2⟩
  | .elf64 => ⟨6, 2⟩

end LeafSym

/-- `SHN_UNDEF`. -/
def shnUndef : Nat := 0

/-- `SHN_ABS`. -/
def shnAbs : Nat := 0xfff1

/-- `SHN_COMMON`. -/
def shnCommon : Nat := 0xfff2

/-- `STT_FUNC`. -/
def sttFunc : Nat := 2

/-- `LeafSymType`. -/
def leafSymType (i : Nat) : Nat := i % 16

/-! ## `LeafRel` and `LeafRela` -/

namespace LeafRela

/-- The size of a `LeafRel`. -/
def relSize (cls : ElfClass) : Nat := 2 * cls.wordBytes

def size (cls : ElfClass) : Nat := 3 * cls.wordBytes

def rOffset (cls : ElfClass) : Field := ⟨0, cls.wordBytes⟩

def rInfo (cls : ElfClass) : Field := ⟨cls.wordBytes, cls.wordBytes⟩

def rAddend (cls : ElfClass) : Field := ⟨2 * cls.wordBytes, cls.wordBytes⟩

end LeafRela

/-- `LeafRelocSym`. -/
def leafRelocSym (cls : ElfClass) (i : Nat) : Nat :=
  match cls with
  | .elf32 => i >>> 8
  | .elf64 => i >>> 32

/-- `LeafRelocType`. -/
def leafRelocType (cls : ElfClass) (i : Nat) : Nat :=
  match cls with
  | .elf32 => i % 2 ^ 8
  | .elf64 => i % 2 ^ 32

/-- The platforms that the loader is built for. -/
inductive Platform where
  | arm
  | i386
  | aarch64
  deriving DecidableEq, Repr

/-- The ELF class of a platform. -/
def Platform.cls : Platform → ElfClass
  | .arm => .elf32
  | .i386 => .elf32
  | .aarch64 => .elf64

/-- The relocations that the loader knows. -/
inductive RelocKind where
  | relative
  | globDat
  | jumpSlot
  | other
  deriving DecidableEq, Repr

/-- The types that `LeafDoRela` knows: `R_AARCH64_RELATIVE` and so on. -/
def Platform.relaKind : Platform → Nat → RelocKind
  | .aarch64, 1027 => .relative
  | .aarch64, 1025 => .globDat
  | .aarch64, 1026 => .jumpSlot
  | _, _ => .other

/-- The types that `LeafDoRel` knows; `R_386_COPY` does nothing either. -/
def Platform.relKind : Platform → Nat → RelocKind
  | .arm, 23 => .relative
  | .arm, 21 => .globDat
  | .arm, 22 => .jumpSlot
  | .i386, 8 => .relative
  | .i386, 6 => .globDat
  | .i386, 7 => .jumpSlot
  | _, _ => .other

end AndrLeaf
end KnShim
