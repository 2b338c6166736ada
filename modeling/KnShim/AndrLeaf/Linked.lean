import KnShim.AndrLeaf.Fixup

/-!
# AndrLeaf.Linked — relocation with explicit addends

The addends of a RELA table are in its entries, so the places are only written to.  The symbol table
is fixed up first, then both tables are applied.  When all of these are apart from each other, each
place holds what its entry says of the symbols as they were fixed up, whatever the order of the
entries.
-/

namespace KnShim
namespace AndrLeaf

open Lib Memory

/-! ## Entries -/

/-- What an entry of a RELA table says. -/
structure RelaEntry (w : Nat) where
  place : BitVec w
  kind : RelocKind
  sym : Nat
  addend : BitVec w
  deriving DecidableEq

/-- What it puts into its place, when `r` says what the values of the symbols are. -/
def RelaEntry.value {w : Nat} (blob : BitVec w) (r : Nat → BitVec w) (entry : RelaEntry w) :
    Option (BitVec w) :=
  match entry.kind with
  | .relative => some (blob + entry.addend)
  | .globDat => some (r entry.sym + entry.addend)
  | .jumpSlot => some (r entry.sym + entry.addend)
  | .other => none

/-- What it writes. -/
def RelaEntry.write {cls : ElfClass} (blob : BitVec cls.bits) (r : Nat → BitVec cls.bits)
    (entry : RelaEntry cls.bits) : BitVec cls.bits × Bytes :=
  relocWrite entry.place (entry.value blob r)

section Entry

variable (platform : Platform) (blob symtab : BitVec platform.cls.bits)
  (m : Memory platform.cls.bits) (rela : BitVec platform.cls.bits)

/-- The entry at an address. -/
def relaEntry : RelaEntry platform.cls.bits where
  place := placeOf blob m rela
  kind := platform.relaKind (typeOf m rela)
  sym := symOf m rela
  addend := BitVec.ofNat _ ((LeafRela.rAddend platform.cls).load m rela)

/-- `&relocs[i]`. -/
def relaAt (relocs : BitVec platform.cls.bits) (i : Nat) : BitVec platform.cls.bits :=
  relocs + BitVec.ofNat _ (i * LeafRela.size platform.cls)

/-- A round of the loop, for the entry at an address. -/
def relaStepAt : Memory platform.cls.bits :=
  m.write ((relaEntry platform blob m rela).write blob (stValue m symtab)).1
    ((relaEntry platform blob m rela).write blob (stValue m symtab)).2

variable {platform blob symtab m rela} {m' : Memory platform.cls.bits}

theorem LeafRela.size_le (cls : ElfClass) : LeafRela.size cls ≤ 2 ^ cls.bits := by
  cases cls <;> decide

theorem LeafRela.relSize_le_size (cls : ElfClass) : LeafRela.relSize cls ≤ LeafRela.size cls := by
  cases cls <;> decide

theorem LeafRela.rAddend_stop_le (cls : ElfClass) :
    (LeafRela.rAddend cls).stop ≤ LeafRela.size cls := by
  cases cls <;> decide

theorem relaStep_eq (relocs : BitVec platform.cls.bits) (i : Nat) :
    relaStep platform blob symtab relocs m i =
      relaStepAt platform blob symtab m (relaAt platform relocs i) := by
  have hstep : relaStep platform blob symtab relocs m i =
      match (relaEntry platform blob m (relaAt platform relocs i)).kind with
      | .relative => storeWord m (relaEntry platform blob m (relaAt platform relocs i)).place
          (blob + (relaEntry platform blob m (relaAt platform relocs i)).addend)
      | .globDat => storeWord m (relaEntry platform blob m (relaAt platform relocs i)).place
          (stValue m symtab (relaEntry platform blob m (relaAt platform relocs i)).sym +
            (relaEntry platform blob m (relaAt platform relocs i)).addend)
      | .jumpSlot => storeWord m (relaEntry platform blob m (relaAt platform relocs i)).place
          (stValue m symtab (relaEntry platform blob m (relaAt platform relocs i)).sym +
            (relaEntry platform blob m (relaAt platform relocs i)).addend)
      | .other => m := rfl
  rw [hstep, relaStepAt, RelaEntry.write, RelaEntry.value]
  cases (relaEntry platform blob m (relaAt platform relocs i)).kind <;> rfl

/-- An entry depends on its own bytes alone. -/
theorem relaEntry_congr (h : ∀ p, InRange rela (LeafRela.size platform.cls) p → m' p = m p) :
    relaEntry platform blob m' rela = relaEntry platform blob m rela := by
  have hrel : ∀ p, InRange rela (LeafRela.relSize platform.cls) p → m' p = m p :=
    fun p hp => h p (lt_of_lt_of_le hp (LeafRela.relSize_le_size _))
  rw [relaEntry, relaEntry, placeOf_congr hrel, typeOf_congr hrel, symOf_congr hrel,
    Field.load_congr (LeafRela.rAddend_stop_le _) (LeafRela.size_le _) h]

/-- Only the symbol that is used matters. -/
theorem RelaEntry.write_congr {cls : ElfClass} {blob : BitVec cls.bits}
    {r r' : Nat → BitVec cls.bits} {entry : RelaEntry cls.bits}
    (h : entry.kind.usesSymbol → r' entry.sym = r entry.sym) :
    entry.write blob r' = entry.write blob r := by
  rw [write, write, value, value]
  cases hkind : entry.kind with
  | relative => rfl
  | other => rfl
  | globDat => rw [h (by rw [hkind]; rfl)]
  | jumpSlot => rw [h (by rw [hkind]; rfl)]

end Entry

/-! ## Both tables -/

section Tables

variable (platform : Platform) (leaf : LeafObject platform.cls.bits)
  (scan : Scan platform.cls.bits) (counts : RelocCounts) (m : Memory platform.cls.bits)

/-- The addresses of the entries of both tables, in the order in which they are applied. -/
def relaAddrs : List (BitVec platform.cls.bits) :=
  (List.range counts.relocCount).map (relaAt platform scan.relocs) ++
    (List.range counts.pltRelocCount).map (relaAt platform scan.pltRelocs)

/-- The entries of both tables. -/
def relaEntries : List (RelaEntry platform.cls.bits) :=
  (relaAddrs platform scan counts).map (relaEntry platform leaf.blob m)

/-- Both tables are apart from the symbol table, the places are apart from all three and from each
other, and the symbols that are used are in the symbol table. -/
structure RelaTables : Prop where
  symbols : SymbolTable leaf m
  tables : ∀ rela ∈ relaAddrs platform scan counts,
    Apart rela (LeafRela.size platform.cls) leaf.symtab (tableSize leaf)
  used : ∀ entry ∈ relaEntries platform leaf scan counts m,
    entry.kind.usesSymbol → entry.sym < leaf.symCount
  places : (relaEntries platform leaf scan counts m).Pairwise fun entry other =>
    Apart entry.place platform.cls.wordBytes other.place platform.cls.wordBytes
  placesSymbols : ∀ entry ∈ relaEntries platform leaf scan counts m,
    Apart entry.place platform.cls.wordBytes leaf.symtab (tableSize leaf)
  placesTables : ∀ entry ∈ relaEntries platform leaf scan counts m,
    ∀ rela ∈ relaAddrs platform scan counts,
      Apart entry.place platform.cls.wordBytes rela (LeafRela.size platform.cls)

/-- What is read for an entry: the entry and its symbol. -/
def RelaReads (rela p : BitVec platform.cls.bits) : Prop :=
  InRange rela (LeafRela.size platform.cls) p ∨
    (relaEntry platform leaf.blob m rela).kind.usesSymbol ∧
      InRange (symAt leaf.symtab (relaEntry platform leaf.blob m rela).sym)
        (LeafSym.size platform.cls) p

variable {platform leaf scan counts m} {linker : Linker platform.cls.bits}

/-- Both calls of `LeafDoRela` go over the entries of both tables. -/
theorem relocate_rela :
    relocate platform leaf scan counts dtRela m =
      (relaAddrs platform scan counts).foldl (relaStepAt platform leaf.blob leaf.symtab) m := by
  have hloop : ∀ relocs n (memory : Memory platform.cls.bits),
      leafDoRela platform leaf.blob leaf.symtab relocs n memory =
        ((List.range n).map (relaAt platform relocs)).foldl
          (relaStepAt platform leaf.blob leaf.symtab) memory := by
    intro relocs n memory
    rw [leafDoRela, List.foldl_map]
    congr 1
    funext memory i
    exact relaStep_eq relocs i
  rw [relocate, if_pos rfl, hloop, hloop, relaAddrs, List.foldl_append]

/-- Linking is the writes of the symbol table and then those of the places. -/
theorem linked_eq (h : RelaTables platform leaf scan counts m) :
    relocate platform leaf scan counts dtRela (linkSymbols linker leaf m) =
      (m.writeAll (cells leaf (symbolValue linker leaf m))).writeAll
        ((relaEntries platform leaf scan counts m).map
          (RelaEntry.write leaf.blob (symbolValue linker leaf m))) := by
  have hfits := h.symbols.fits
  rw [relocate_rela, linkSymbols_eq h.symbols, relaEntries, List.map_map]
  apply foldl_eq_writeAll (RelaReads platform leaf m)
  · intro rela hrela m' hagree
    have hmem : relaEntry platform leaf.blob m rela ∈ relaEntries platform leaf scan counts m :=
      List.mem_map_of_mem hrela
    -- the fix-up has not touched the entry
    have hentry : relaEntry platform leaf.blob m' rela = relaEntry platform leaf.blob m rela := by
      apply relaEntry_congr
      intro p hp
      rw [hagree p (Or.inl hp)]
      exact writeAll_cells_of_not_table hfits (h.tables rela hrela p hp)
    rw [relaStepAt, hentry, RelaEntry.write_congr]
    · rfl
    · intro huses
      have hsym := h.used _ hmem huses
      calc
        stValue m' leaf.symtab (relaEntry platform leaf.blob m rela).sym =
            stValue (m.writeAll (cells leaf (symbolValue linker leaf m))) leaf.symtab
              (relaEntry platform leaf.blob m rela).sym :=
          stValue_congr fun p hp => hagree p (Or.inr ⟨huses, hp⟩)
        _ = symbolValue linker leaf m (relaEntry platform leaf.blob m rela).sym :=
          stValue_writeAll_cells hfits _ hsym
  · -- the places are apart from everything that is read
    apply List.pairwise_of_forall_mem_list
    intro rela hrela other hother p hcovers hreads
    have hmem : relaEntry platform leaf.blob m rela ∈ relaEntries platform leaf scan counts m :=
      List.mem_map_of_mem hrela
    have hmem' : relaEntry platform leaf.blob m other ∈ relaEntries platform leaf scan counts m :=
      List.mem_map_of_mem hother
    have hplace := (inRange_of_covers_relocWrite hcovers).2
    rcases hreads with hentry | ⟨huses, hsym⟩
    · exact h.placesTables _ hmem other hother p hplace hentry
    · exact h.placesSymbols _ hmem p hplace
        (inRange_table_of_symAt hfits (h.used _ hmem' huses) hsym)

theorem RelaTables.writes_apart (h : RelaTables platform leaf scan counts m)
    (r : Nat → BitVec platform.cls.bits) :
    PairwiseApart ((relaEntries platform leaf scan counts m).map (RelaEntry.write leaf.blob r)) := by
  rw [PairwiseApart, List.pairwise_map]
  exact h.places.imp fun hapart => relocWrite_apart hapart

end Tables

/-! ## What linking leaves in memory -/

section Result

variable (platform : Platform) (linker : Linker platform.cls.bits)
  (leaf : LeafObject platform.cls.bits)

/-- Each place holds what its entry says, and outside the places and the symbol table nothing is
changed. -/
def RelaApplied (scan : Scan platform.cls.bits) (counts : RelocCounts)
    (m m' : Memory platform.cls.bits) : Prop :=
  (∀ entry ∈ relaEntries platform leaf scan counts m,
    ∀ v, entry.value leaf.blob (symbolValue linker leaf m) = some v →
      loadWord m' entry.place = v) ∧
    ∀ p, ¬ InRange leaf.symtab (tableSize leaf) p →
      (∀ entry ∈ relaEntries platform leaf scan counts m, entry.kind ≠ .other →
        ¬ InRange entry.place platform.cls.wordBytes p) → m' p = m p

/-- The tables are the same up to the order of the entries, and so is everything else. -/
structure SameEntries (scan scan' : Scan platform.cls.bits) (counts counts' : RelocCounts)
    (m m' : Memory platform.cls.bits) : Prop where
  entries : (relaEntries platform leaf scan counts m).Perm
    (relaEntries platform leaf scan' counts' m')
  memory : ∀ p, (∀ rela ∈ relaAddrs platform scan counts ++ relaAddrs platform scan' counts',
    ¬ InRange rela (LeafRela.size platform.cls) p) → m p = m' p
  names : ∀ i < leaf.symCount, nameAt leaf m i = nameAt leaf m' i

variable {platform linker leaf} {scan scan' : Scan platform.cls.bits}
  {counts counts' : RelocCounts} {m m' : Memory platform.cls.bits}

theorem RelaEntry.value_isSome_iff {w : Nat} {blob : BitVec w} {r : Nat → BitVec w}
    {entry : RelaEntry w} : (entry.value blob r).isSome ↔ entry.kind ≠ .other := by
  rw [value]
  cases entry.kind <;> simp

theorem linked_applied (h : RelaTables platform leaf scan counts m) :
    RelaApplied platform linker leaf scan counts m
      (relocate platform leaf scan counts dtRela (linkSymbols linker leaf m)) := by
  rw [linked_eq h]
  constructor
  · intro entry hentry v hv
    apply loadWord_writeAll (h.writes_apart _)
    rw [← hv]
    exact List.mem_map_of_mem hentry
  · intro p hsymtab hplaces
    rw [writeAll_of_not_covered, writeAll_cells_of_not_table h.symbols.fits hsymtab]
    intro write hwrite hcovers
    rcases List.mem_map.mp hwrite with ⟨entry, hentry, rfl⟩
    rcases inRange_of_covers_relocWrite hcovers with ⟨hsome, hplace⟩
    exact hplaces entry hentry (RelaEntry.value_isSome_iff.mp hsome) hplace

/-- The symbols have the same values. -/
theorem SameEntries.symbolValue_eq (hsame : SameEntries platform leaf scan scan' counts counts' m m')
    (h : RelaTables platform leaf scan counts m) (h' : RelaTables platform leaf scan' counts' m')
    {i : Nat} (hi : i < leaf.symCount) :
    symbolValue linker leaf m' i = symbolValue linker leaf m i := by
  -- the symbol table is apart from both relocation tables
  have hentry : ∀ p, InRange (symAt leaf.symtab i) (LeafSym.size platform.cls) p → m' p = m p := by
    intro p hp
    have hin : InRange leaf.symtab (tableSize leaf) p := inRange_table_of_symAt h.symbols.fits hi hp
    refine (hsame.memory p fun rela hrela hrange => ?_).symm
    rcases List.mem_append.mp hrela with hrela | hrela
    · exact h.tables rela hrela p hrange hin
    · exact h'.tables rela hrela p hrange hin
  have hfirst : ∀ name, firstNamed leaf m' name = firstNamed leaf m name := by
    intro name
    apply List.find?_congr
    intro j hj
    rw [hsame.names j (List.mem_range.mp hj)]
  have hshndx : shndxAt leaf m' i = shndxAt leaf m i :=
    Field.load_congr (LeafSym.stShndx_stop_le _) (LeafSym.size_le _) hentry
  rw [symbolValue, symbolValue, hfirst, hfirst, fixedValue, fixedValue, hshndx,
    stValue_congr hentry, hsame.names i hi]

/-- The order of the entries does not matter. -/
theorem linked_sameEntries (h : RelaTables platform leaf scan counts m)
    (h' : RelaTables platform leaf scan' counts' m')
    (hsame : SameEntries platform leaf scan scan' counts counts' m m')
    {p : BitVec platform.cls.bits}
    (hp : ∀ rela ∈ relaAddrs platform scan counts ++ relaAddrs platform scan' counts',
      ¬ InRange rela (LeafRela.size platform.cls) p) :
    relocate platform leaf scan' counts' dtRela (linkSymbols linker leaf m') p =
      relocate platform leaf scan counts dtRela (linkSymbols linker leaf m) p := by
  have hcells :
      cells leaf (symbolValue linker leaf m') = cells leaf (symbolValue linker leaf m) := by
    apply List.map_congr_left
    intro i hi
    rw [hsame.symbolValue_eq h h' (List.mem_range.mp hi)]
  have hwrites : (relaEntries platform leaf scan' counts' m').map
        (RelaEntry.write leaf.blob (symbolValue linker leaf m')) =
      (relaEntries platform leaf scan' counts' m').map
        (RelaEntry.write leaf.blob (symbolValue linker leaf m)) := by
    apply List.map_congr_left
    intro entry hentry
    exact RelaEntry.write_congr fun huses =>
      hsame.symbolValue_eq h h' (h'.used entry hentry huses)
  have hperm := hsame.entries.map (RelaEntry.write leaf.blob (symbolValue linker leaf m))
  rw [linked_eq h, linked_eq h', hcells, hwrites, ← writeAll_perm hperm (h.writes_apart _)]
  exact writeAll_congr (writeAll_congr (hsame.memory p hp).symm _) _

/-- Linking puts the right values into the places and changes nothing else, whatever the order of
the entries. -/
theorem linked_rela (h : RelaTables platform leaf scan counts m) :
    RelaApplied platform linker leaf scan counts m
        (relocate platform leaf scan counts dtRela (linkSymbols linker leaf m)) ∧
      ∀ scan' counts' m', RelaTables platform leaf scan' counts' m' →
        SameEntries platform leaf scan scan' counts counts' m m' →
          ∀ p, (∀ rela ∈ relaAddrs platform scan counts ++ relaAddrs platform scan' counts',
            ¬ InRange rela (LeafRela.size platform.cls) p) →
              relocate platform leaf scan' counts' dtRela (linkSymbols linker leaf m') p =
                relocate platform leaf scan counts dtRela (linkSymbols linker leaf m) p := by
  refine ⟨linked_applied h, ?_⟩
  intro scan' counts' m' h' hsame p hp
  exact linked_sameEntries h h' hsame hp

end Result

/-! ## A small object -/

namespace Sample

/-- An undefined symbol and `__cxa_atexit`, their names, two tables with three entries and the
places of these. -/
def rela : Memory (Platform.cls .aarch64).bits := fun p =>
  (List.replicate 24 0 ++
    toLE 4 1 ++ [0x11, 0] ++ toLE 2 0 ++ List.replicate 16 0 ++
    toLE 4 3 ++ [0x12, 0] ++ toLE 2 1 ++ toLE 8 0x40 ++ toLE 8 4 ++
    [0, 0x61, 0] ++ cxaAtexit.bytes ++ [0] ++
    toLE 8 0xa0 ++ toLE 8 1027 ++ toLE 8 0x1234 ++
    toLE 8 0xa8 ++ toLE 8 0x100000401 ++ toLE 8 8 ++
    toLE 8 0xb0 ++ toLE 8 0x200000402 ++ toLE 8 0).getD (p - 0x10000).toNat 0

def relaLeaf : LeafObject (Platform.cls .aarch64).bits :=
  { leafInit _ with
    blob := 0x10000
    strtab := 0x10048
    symtab := 0x10000
    symCount := 3
    dlHandles := [0, 1] }

def relaScan : Scan (Platform.cls .aarch64).bits :=
  { Scan.start [] with
    relocs := 0x10058
    pltRelocs := 0x10088 }

/-- One of the handles is `NULL`, and the other one defines every name. -/
def relaLinker : Linker (Platform.cls .aarch64).bits where
  dlopen := fun _ => 1
  dlsym := fun _ _ => 0x5000
  leafCxaAtexit := 0x1000
  call := fun _ m => m

/-- Its strings. -/
def relaName : Nat → CString
  | 1 => ⟨[0x61], by decide⟩
  | 2 => cxaAtexit
  | _ => CString.empty

theorem rela_symbols : SymbolTable relaLeaf rela where
  fits := by decide
  names := by
    intro i hi
    have hname : ∀ i < 3, strcmpAt rela (stNameAt rela relaLeaf.strtab relaLeaf.symtab i)
        (relaName i) ∧ (relaName i).length < 2 ^ (Platform.cls .aarch64).bits ∧
        (relaName i).length + 1 ≤
          (relaLeaf.symtab - stNameAt rela relaLeaf.strtab relaLeaf.symtab i).toNat ∧
        tableSize relaLeaf ≤
          (stNameAt rela relaLeaf.strtab relaLeaf.symtab i - relaLeaf.symtab).toNat := by
      decide +kernel
    rcases hname i hi with ⟨hcmp, hlt, hfar, hfar'⟩
    rw [nameSize, (strcmpAt_iff hlt).mp hcmp]
    exact apart_of_le_sub hfar hfar'

theorem rela_tables : RelaTables .aarch64 relaLeaf relaScan ⟨2, 1⟩ rela where
  symbols := rela_symbols
  tables := by
    have hfar : (relaAddrs .aarch64 relaScan ⟨2, 1⟩).all fun rela =>
        24 ≤ (relaLeaf.symtab - rela).toNat ∧ 72 ≤ (rela - relaLeaf.symtab).toNat := by
      decide +kernel
    intro rela hrela
    have hrelaFar := of_decide_eq_true (List.all_eq_true.mp hfar rela hrela)
    exact apart_of_le_sub hrelaFar.1 hrelaFar.2
  used := by decide +kernel
  places := by
    have hfar : (relaEntries .aarch64 relaLeaf relaScan ⟨2, 1⟩ rela).Pairwise fun entry other =>
        8 ≤ (other.place - entry.place).toNat ∧ 8 ≤ (entry.place - other.place).toNat := by
      decide +kernel
    exact hfar.imp fun h => apart_of_le_sub h.1 h.2
  placesSymbols := by
    have hfar : ∀ entry ∈ relaEntries .aarch64 relaLeaf relaScan ⟨2, 1⟩ rela,
        8 ≤ (relaLeaf.symtab - entry.place).toNat ∧
          72 ≤ (entry.place - relaLeaf.symtab).toNat := by
      decide +kernel
    exact fun entry hentry => apart_of_le_sub (hfar entry hentry).1 (hfar entry hentry).2
  placesTables := by
    have hfar : ∀ entry ∈ relaEntries .aarch64 relaLeaf relaScan ⟨2, 1⟩ rela,
        (relaAddrs .aarch64 relaScan ⟨2, 1⟩).all fun rela =>
          8 ≤ (rela - entry.place).toNat ∧ 24 ≤ (entry.place - rela).toNat := by
      decide +kernel
    intro entry hentry rela hrela
    have hrelaFar := of_decide_eq_true (List.all_eq_true.mp (hfar entry hentry) rela hrela)
    exact apart_of_le_sub hrelaFar.1 hrelaFar.2

end Sample

/-- The three places of the small object hold what their entries say. -/
theorem linked_rela_small :
    RelaApplied .aarch64 Sample.relaLinker Sample.relaLeaf Sample.relaScan ⟨2, 1⟩ Sample.rela
      (relocate .aarch64 Sample.relaLeaf Sample.relaScan ⟨2, 1⟩ dtRela
        (linkSymbols Sample.relaLinker Sample.relaLeaf Sample.rela)) :=
  (linked_rela Sample.rela_tables).1

end AndrLeaf
end KnShim
