import KnShim.AndrLeaf.Relocation
import Mathlib.Data.List.Find

/-!
# AndrLeaf.Fixup — the symbol table after the fix-up and the replacements

The fix-up loop rewrites the values of the symbols in place, and then the two `atexit` functions are
looked up and replaced.  When the names are not in the table itself, neither changes what is read
later, so in the end each symbol has the value that `symbolValue` computes from the memory at the
start.
-/

namespace KnShim
namespace AndrLeaf

open Lib Memory

/-! ## Names -/

section Names

variable {w : Nat} {m m' : Memory w} {a : BitVec w}

/-- How many bytes a string takes, with its NUL. -/
def nameSize (m : Memory w) (a : BitVec w) : Nat := (cstringAt m a).length + 1

/-- A string depends on its own bytes alone. -/
theorem cstringAt_congr (h : ∀ p, InRange a (nameSize m a) p → m' p = m p) :
    cstringAt m' a = cstringAt m a := by
  apply CString.upToNul_congr
  have hbytes : m'.read a (min (nameSize m a) (2 ^ w)) = m.read a (min (nameSize m a) (2 ^ w)) :=
    read_congr (Nat.min_le_right _ _) fun p hp =>
      h p (lt_of_lt_of_le hp (Nat.min_le_left _ _))
  rw [take_read, take_read]
  exact hbytes

/-- Comparing strings is comparing what they are. -/
theorem strcmpAt_iff {name : CString} (hname : name.length < 2 ^ w) :
    strcmpAt m a name ↔ cstringAt m a = name := by
  have htaken : m.read a (name.length + 1) = (m.read a (2 ^ w)).take (name.length + 1) := by
    rw [take_read, Nat.min_eq_left hname]
  rw [strcmpAt, decide_eq_true_eq, cstringAt, htaken]
  constructor
  · intro htake
    have hsplit := List.take_append_drop (name.length + 1) (m.read a (2 ^ w))
    rw [htake, List.append_assoc] at hsplit
    rw [← hsplit]
    exact CString.upToNul_append_nul name _
  · intro heq
    -- without a NUL the string would be the whole memory
    have hnul : (0 : UInt8) ∈ m.read a (2 ^ w) := by
      by_contra hno
      have hall : CString.upToNul (m.read a (2 ^ w)) = ⟨m.read a (2 ^ w), hno⟩ :=
        CString.upToNul_bytes ⟨_, hno⟩
      have hlength : name.length = 2 ^ w := by
        rw [← heq, hall]
        exact read_length m a _
      omega
    rcases CString.starts_upToNul hnul with ⟨rest, hrest⟩
    rw [heq] at hrest
    rw [hrest, show name.bytes ++ 0 :: rest = (name.bytes ++ [0]) ++ rest by simp]
    exact List.take_left' (List.length_append)

end Names

/-! ## Values -/

section Values

variable {cls : ElfClass} (linker : Linker cls.bits) (leaf : LeafObject cls.bits)
  (m : Memory cls.bits)

/-- The name of a symbol. -/
def nameAt (i : Nat) : CString := cstringAt m (stNameAt m leaf.strtab leaf.symtab i)

/-- `symtab[i].st_shndx`. -/
def shndxAt (i : Nat) : Nat := (LeafSym.stShndxField cls).load m (symAt leaf.symtab i)

/-- The first symbol of a name. -/
def firstNamed (name : CString) : Option Nat :=
  (List.range leaf.symCount).find? fun i => nameAt leaf m i = name

/-- The answer of the first handle that is not `NULL` and defines the name. -/
def firstAnswer (name : CString) : Option (BitVec cls.bits) :=
  ((leaf.dlHandles.filter (· ≠ 0)).map (linker.dlsym · name)).find? (· ≠ 0)

/-- The value of a symbol after the fix-up. -/
def fixedValue (i : Nat) : BitVec cls.bits :=
  if i = 0 ∨ shndxAt leaf m i = shnAbs ∨ shndxAt leaf m i = shnCommon then
    stValue m leaf.symtab i
  else if shndxAt leaf m i = shnUndef then
    (firstAnswer linker leaf (nameAt leaf m i)).getD (stValue m leaf.symtab i)
  else
    stValue m leaf.symtab i + leaf.blob

/-- The value of a symbol when the relocations are applied. -/
def symbolValue (i : Nat) : BitVec cls.bits :=
  if firstNamed leaf m cxaAtexit = some i ∨ firstNamed leaf m aeabiAtexit = some i then
    linker.leafCxaAtexit
  else
    fixedValue linker leaf m i

/-- The size of the symbol table. -/
def tableSize : Nat := leaf.symCount * LeafSym.size cls

/-- The symbol table fits into the memory, and the names are not in it. -/
structure SymbolTable : Prop where
  fits : tableSize leaf ≤ 2 ^ cls.bits
  names : ∀ i < leaf.symCount,
    Apart (stNameAt m leaf.strtab leaf.symtab i)
      (nameSize m (stNameAt m leaf.strtab leaf.symtab i)) leaf.symtab (tableSize leaf)

/-- The loop over the handles finds this answer. -/
theorem resolve_eq (name : CString) :
    resolve linker leaf.dlHandles name = firstAnswer linker leaf name := by
  rw [resolve, firstAnswer]
  induction leaf.dlHandles with
  | nil => rfl
  | cons handle handles ih =>
      by_cases hnull : handle = 0
      · simpa [List.findSome?_cons, hnull] using ih
      · by_cases hno : linker.dlsym handle name = 0
        · simpa [List.findSome?_cons, hnull, hno] using ih
        · have hfirst : ¬ (handle = 0 ∨ linker.dlsym handle name = 0) :=
            fun h => h.elim hnull hno
          have hkeep : (handle :: handles).filter (· ≠ 0) = handle :: handles.filter (· ≠ 0) :=
            List.filter_cons_of_pos (decide_eq_true hnull)
          have hanswer : decide (linker.dlsym handle name ≠ 0) = true := decide_eq_true hno
          rw [List.findSome?_cons, if_neg hfirst, hkeep, List.map_cons, List.find?_cons, hanswer]

end Values

/-! ## The cells of the values -/

section Cells

variable {cls : ElfClass} {leaf : LeafObject cls.bits} {m m' : Memory cls.bits}

/-- Where the value of a symbol is. -/
def cellAt (leaf : LeafObject cls.bits) (i : Nat) : BitVec cls.bits :=
  symAt leaf.symtab i + BitVec.ofNat _ (LeafSym.stValueField cls).start

/-- The values of all symbols, as writes. -/
def cells (leaf : LeafObject cls.bits) (f : Nat → BitVec cls.bits) :
    List (BitVec cls.bits × Bytes) :=
  (List.range leaf.symCount).map fun i => (cellAt leaf i, toLE cls.wordBytes (f i).toNat)

theorem LeafSym.value_fits (cls : ElfClass) :
    (LeafSym.stValueField cls).start + cls.wordBytes ≤ LeafSym.size cls := by
  cases cls <;> decide

/-- The name and the value of an entry do not overlap. -/
theorem LeafSym.stName_apart_value (a : BitVec cls.bits) :
    Apart (a + BitVec.ofNat _ LeafSym.stNameField.start) LeafSym.stNameField.size
      (a + BitVec.ofNat _ (LeafSym.stValueField cls).start) cls.wordBytes := by
  cases cls with
  | elf32 => exact apart_offsets a (by decide) (by decide)
  | elf64 => exact apart_offsets a (by decide) (by decide)

theorem symAt_stop_le {i n : Nat} (hi : i < n) (size : Nat) : i * size + size ≤ n * size := by
  calc
    i * size + size = (i + 1) * size := (Nat.succ_mul i size).symm
    _ ≤ n * size := Nat.mul_le_mul_right size hi

/-- An entry is in the table. -/
theorem inRange_table_of_symAt {i : Nat} (hfits : tableSize leaf ≤ 2 ^ cls.bits)
    (hi : i < leaf.symCount) {p : BitVec cls.bits}
    (hp : InRange (symAt leaf.symtab i) (LeafSym.size cls) p) :
    InRange leaf.symtab (tableSize leaf) p :=
  (hp.of_offset (symAt_stop_le hi _) hfits).2

/-- A cell is in its entry. -/
theorem inRange_symAt_of_cell {i : Nat} {p : BitVec cls.bits}
    (hp : InRange (cellAt leaf i) cls.wordBytes p) :
    InRange (symAt leaf.symtab i) (LeafSym.size cls) p :=
  (hp.of_offset (LeafSym.value_fits cls) (LeafSym.size_le cls)).2

/-- Different entries are apart. -/
theorem symAt_apart {i j : Nat} (hfits : tableSize leaf ≤ 2 ^ cls.bits) (hi : i < leaf.symCount)
    (hj : j < leaf.symCount) (hne : i ≠ j) :
    Apart (symAt leaf.symtab i) (LeafSym.size cls) (symAt leaf.symtab j) (LeafSym.size cls) := by
  rcases Nat.lt_or_gt_of_ne hne with hlt | hgt
  · exact apart_offsets _ (symAt_stop_le hlt _) (le_trans (symAt_stop_le hj _) hfits)
  · exact (apart_offsets _ (symAt_stop_le hgt _) (le_trans (symAt_stop_le hi _) hfits)).symm

theorem cells_apart (hfits : tableSize leaf ≤ 2 ^ cls.bits) (f : Nat → BitVec cls.bits) :
    PairwiseApart (cells leaf f) := by
  rw [PairwiseApart, cells, List.pairwise_map]
  refine List.pairwise_lt_range.imp_of_mem fun {i j} hi hj hlt p hcell hcell' => ?_
  rw [toLE_length] at hcell hcell'
  exact symAt_apart hfits (List.mem_range.mp hi) (List.mem_range.mp hj) (Nat.ne_of_lt hlt) p
    (inRange_symAt_of_cell hcell) (inRange_symAt_of_cell hcell')

/-- Outside the cells nothing is changed. -/
theorem writeAll_cells_of_outside {f : Nat → BitVec cls.bits} {p : BitVec cls.bits}
    (h : ∀ i < leaf.symCount, ¬ InRange (cellAt leaf i) cls.wordBytes p) :
    m.writeAll (cells leaf f) p = m p := by
  apply writeAll_of_not_covered
  intro entry hentry hcovers
  rcases List.mem_map.mp hentry with ⟨i, hi, rfl⟩
  rw [Covers, toLE_length] at hcovers
  exact h i (List.mem_range.mp hi) hcovers

/-- Outside the table nothing is changed. -/
theorem writeAll_cells_of_not_table (hfits : tableSize leaf ≤ 2 ^ cls.bits)
    {f : Nat → BitVec cls.bits} {p : BitVec cls.bits}
    (h : ¬ InRange leaf.symtab (tableSize leaf) p) : m.writeAll (cells leaf f) p = m p := by
  apply writeAll_cells_of_outside
  intro i hi hcell
  exact h (inRange_table_of_symAt hfits hi (inRange_symAt_of_cell hcell))

/-- The value of a symbol is the word in its cell. -/
theorem stValue_eq_loadWord (m : Memory cls.bits) (leaf : LeafObject cls.bits) (i : Nat) :
    stValue m leaf.symtab i = loadWord m (cellAt leaf i) := by
  cases cls <;> rfl

/-- The value of a symbol is what was written to its cell. -/
theorem stValue_writeAll_cells (hfits : tableSize leaf ≤ 2 ^ cls.bits) (f : Nat → BitVec cls.bits)
    {i : Nat} (hi : i < leaf.symCount) :
    stValue (m.writeAll (cells leaf f)) leaf.symtab i = f i := by
  have hmem : relocWrite (cellAt leaf i) (some (f i)) ∈ cells leaf f :=
    List.mem_map.mpr ⟨i, List.mem_range.mpr hi, rfl⟩
  rw [stValue_eq_loadWord]
  exact loadWord_writeAll (cells_apart hfits f) hmem

/-- A symbol gets another value. -/
theorem setValue_writeAll_cells (hfits : tableSize leaf ≤ 2 ^ cls.bits)
    (f : Nat → BitVec cls.bits) {i : Nat} (hi : i < leaf.symCount) (v : BitVec cls.bits) :
    setValue (m.writeAll (cells leaf f)) leaf.symtab i v =
      m.writeAll (cells leaf (Function.update f i v)) := by
  have hbytes : (fun j => toLE cls.wordBytes (Function.update f i v j).toNat) =
      Function.update (fun j => toLE cls.wordBytes (f j).toNat) i (toLE cls.wordBytes v.toNat) :=
    Function.comp_update (fun u : BitVec cls.bits => toLE cls.wordBytes u.toNat) f i v
  have hlength : (toLE cls.wordBytes v.toNat).length = (toLE cls.wordBytes (f i).toNat).length := by
    rw [toLE_length, toLE_length]
  have hwrite := write_writeAll (m := m) (cells_apart hfits f) (List.mem_range.mpr hi) hlength
  rw [← hbytes] at hwrite
  exact hwrite

end Cells

/-! ## The fix-up -/

section Fixup

variable {cls : ElfClass} {linker : Linker cls.bits} {leaf : LeafObject cls.bits}
  {m m' : Memory cls.bits} {i : Nat}

theorem LeafSym.stName_stop_le (cls : ElfClass) :
    LeafSym.stNameField.stop ≤ LeafSym.size cls := by
  cases cls <;> decide

theorem LeafSym.stShndx_stop_le (cls : ElfClass) :
    (LeafSym.stShndxField cls).stop ≤ LeafSym.size cls := by
  cases cls <;> decide

/-- What is read for a symbol: its entry and its name. -/
def SymbolReads (leaf : LeafObject cls.bits) (m : Memory cls.bits) (i : Nat) (p : BitVec cls.bits) :
    Prop :=
  InRange (symAt leaf.symtab i) (LeafSym.size cls) p ∨
    InRange (stNameAt m leaf.strtab leaf.symtab i)
      (nameSize m (stNameAt m leaf.strtab leaf.symtab i)) p

/-- A symbol has the same value in memories that agree on what is read for it. -/
theorem fixedValue_congr (h : ∀ p, SymbolReads leaf m i p → m' p = m p) :
    fixedValue linker leaf m' i = fixedValue linker leaf m i := by
  have hentry : ∀ p, InRange (symAt leaf.symtab i) (LeafSym.size cls) p → m' p = m p :=
    fun p hp => h p (Or.inl hp)
  have hnameAt : stNameAt m' leaf.strtab leaf.symtab i = stNameAt m leaf.strtab leaf.symtab i := by
    rw [stNameAt, stNameAt,
      Field.load_congr (LeafSym.stName_stop_le cls) (LeafSym.size_le cls) hentry]
  have hname : nameAt leaf m' i = nameAt leaf m i := by
    rw [nameAt, hnameAt]
    exact cstringAt_congr fun p hp => h p (Or.inr hp)
  have hshndx : shndxAt leaf m' i = shndxAt leaf m i :=
    Field.load_congr (LeafSym.stShndx_stop_le cls) (LeafSym.size_le cls) hentry
  rw [fixedValue, fixedValue, hname, hshndx, stValue_congr hentry]

/-- A round of the loop stores the value. -/
theorem fixSymbol_eq (hi : i ≠ 0) :
    fixSymbol linker leaf.blob leaf.strtab leaf.symtab leaf.dlHandles m i =
      storeWord m (cellAt leaf i) (fixedValue linker leaf m i) := by
  have hkeep : storeWord m (cellAt leaf i) (stValue m leaf.symtab i) = m := by
    rw [stValue_eq_loadWord]
    exact storeWord_loadWord m _
  have hanswer : resolve linker leaf.dlHandles
      (cstringAt m (stNameAt m leaf.strtab leaf.symtab i)) =
        firstAnswer linker leaf (nameAt leaf m i) :=
    resolve_eq linker leaf _
  rw [fixSymbol, fixedValue, hanswer]
  change (if shndxAt leaf m i = shnAbs then m else if shndxAt leaf m i = shnCommon then m else
    if shndxAt leaf m i = shnUndef then _ else _) = _
  by_cases hfixed : shndxAt leaf m i = shnAbs ∨ shndxAt leaf m i = shnCommon
  · -- the value stays as it is
    rw [if_pos (Or.inr hfixed), hkeep]
    rcases hfixed with habs | hcommon
    · rw [if_pos habs]
    · rw [if_pos hcommon, ite_self]
  · rcases not_or.mp hfixed with ⟨habs, hcommon⟩
    rw [if_neg habs, if_neg hcommon, if_neg (not_or.mpr ⟨hi, hfixed⟩)]
    by_cases hundef : shndxAt leaf m i = shnUndef
    · rw [if_pos hundef, if_pos hundef]
      cases firstAnswer linker leaf (nameAt leaf m i) with
      | none => exact hkeep.symm
      | some v => rfl
    · rw [if_neg hundef, if_neg hundef]
      rfl

/-- The loop leaves the value of the fix-up in each cell. -/
theorem fixSymbols_eq (h : SymbolTable leaf m) :
    fixSymbols linker leaf.blob leaf.strtab leaf.symtab leaf.dlHandles leaf.symCount m =
      m.writeAll (cells leaf (fixedValue linker leaf m)) := by
  have hloop : fixSymbols linker leaf.blob leaf.strtab leaf.symtab leaf.dlHandles leaf.symCount m =
      m.writeAll ((List.range' 1 (leaf.symCount - 1)).map fun i =>
        (cellAt leaf i, toLE cls.wordBytes (fixedValue linker leaf m i).toNat)) := by
    apply foldl_eq_writeAll (SymbolReads leaf m)
    · intro i hi m' hagree
      have hpos : i ≠ 0 := by
        have hrange := (List.mem_range'_1.mp hi).1
        omega
      rw [fixSymbol_eq hpos, fixedValue_congr hagree]
      rfl
    · -- a cell is apart from the other entries and from all names
      have hsorted := List.pairwise_lt_range' (s := 1) (n := leaf.symCount - 1) 1 Nat.one_pos
      refine hsorted.imp_of_mem fun {i j} hi hj hlt p hcovers hreads => ?_
      have hilt : i < leaf.symCount := by
        have hrange := List.mem_range'_1.mp hi
        omega
      have hjlt : j < leaf.symCount := by
        have hrange := List.mem_range'_1.mp hj
        omega
      rw [Covers, toLE_length] at hcovers
      have hentry := inRange_symAt_of_cell hcovers
      rcases hreads with hother | hname
      · exact symAt_apart h.fits hilt hjlt (Nat.ne_of_lt hlt) p hentry hother
      · exact h.names j hjlt p hname (inRange_table_of_symAt h.fits hilt hentry)
  rw [hloop, cells]
  cases hcount : leaf.symCount with
  | zero => rfl
  | succ n =>
      -- the first symbol keeps its value
      have hzero : fixedValue linker leaf m 0 = stValue m leaf.symtab 0 := if_pos (Or.inl rfl)
      have hkeep : storeWord m (cellAt leaf 0) (fixedValue linker leaf m 0) = m := by
        rw [hzero, stValue_eq_loadWord]
        exact storeWord_loadWord m _
      rw [List.range_eq_range', List.range'_succ, List.map_cons, writeAll_cons,
        Nat.add_sub_cancel, Nat.zero_add]
      exact congrArg (fun memory => Memory.writeAll memory _) hkeep.symm

/-! ## The replacements -/

/-- The names are the same when only values of symbols have changed. -/
theorem nameAt_writeAll_cells (h : SymbolTable leaf m) (f : Nat → BitVec cls.bits)
    (hi : i < leaf.symCount) : nameAt leaf (m.writeAll (cells leaf f)) i = nameAt leaf m i := by
  have hstName : LeafSym.stNameField.load (m.writeAll (cells leaf f)) (symAt leaf.symtab i) =
      LeafSym.stNameField.load m (symAt leaf.symtab i) := by
    rw [Field.load, Field.load, read_congr (by cases cls <;> decide)]
    intro p hp
    apply writeAll_cells_of_outside
    intro j hj hcell
    by_cases hji : j = i
    · -- the member is in front of the value
      subst hji
      exact LeafSym.stName_apart_value (symAt leaf.symtab j) p hp hcell
    · have hentry := (hp.of_offset (LeafSym.stName_stop_le cls) (LeafSym.size_le cls)).2
      exact symAt_apart h.fits hj hi hji p (inRange_symAt_of_cell hcell) hentry
  have hnameAt : stNameAt (m.writeAll (cells leaf f)) leaf.strtab leaf.symtab i =
      stNameAt m leaf.strtab leaf.symtab i := by
    rw [stNameAt, stNameAt, hstName]
  rw [nameAt, hnameAt]
  apply cstringAt_congr
  intro p hp
  exact writeAll_cells_of_not_table h.fits (h.names i hi p hp)

/-- The lookup finds the first symbol of the name. -/
theorem leafSymbolInfo_writeAll_cells (h : SymbolTable leaf m) (f : Nat → BitVec cls.bits)
    {name : CString} (hname : name.length < 2 ^ cls.bits) :
    leafSymbolInfo (m.writeAll (cells leaf f)) leaf.strtab leaf.symtab leaf.symCount name =
      firstNamed leaf m name := by
  apply List.find?_congr
  intro i hi
  have hsame := nameAt_writeAll_cells h f (List.mem_range.mp hi)
  rw [nameAt] at hsame
  rw [Bool.eq_iff_iff, strcmpAt_iff hname, hsame, decide_eq_true_eq]

/-- A symbol that was found gets the stub. -/
theorem replaceSymbol_writeAll_cells (hfits : tableSize leaf ≤ 2 ^ cls.bits)
    (f : Nat → BitVec cls.bits) (name : CString) :
    replaceSymbol linker leaf.symtab (m.writeAll (cells leaf f)) (firstNamed leaf m name) =
      m.writeAll (cells leaf fun i =>
        if firstNamed leaf m name = some i then linker.leafCxaAtexit else f i) := by
  cases hfound : firstNamed leaf m name with
  | none => simp [replaceSymbol]
  | some i =>
      have hi : i < leaf.symCount := List.mem_range.mp (List.mem_of_find?_eq_some hfound)
      rw [replaceSymbol, setValue_writeAll_cells hfits f hi]
      congr 2
      funext j
      by_cases hj : j = i
      · rw [hj, Function.update_self, if_pos rfl]
      · rw [Function.update_of_ne hj, if_neg fun h => hj (Option.some.inj h).symm]

theorem atexit_length_lt (cls : ElfClass) :
    cxaAtexit.length < 2 ^ cls.bits ∧ aeabiAtexit.length < 2 ^ cls.bits := by
  cases cls <;> decide

/-- After the fix-up and the replacements each cell holds the value of its symbol. -/
theorem linkSymbols_eq (h : SymbolTable leaf m) :
    linkSymbols linker leaf m = m.writeAll (cells leaf (symbolValue linker leaf m)) := by
  rw [linkSymbols, fixSymbols_eq h, replaceAtexit]
  simp only [leafSymbolInfo_writeAll_cells h _ (atexit_length_lt cls).1,
    leafSymbolInfo_writeAll_cells h _ (atexit_length_lt cls).2,
    replaceSymbol_writeAll_cells h.fits]
  congr 2
  funext i
  rw [symbolValue]
  by_cases haeabi : firstNamed leaf m aeabiAtexit = some i
  · rw [if_pos haeabi, if_pos (Or.inr haeabi)]
  · rw [if_neg haeabi]
    simp only [haeabi, or_false]

end Fixup

end AndrLeaf
end KnShim
