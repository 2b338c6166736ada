import KnShim.AndrLeaf.Link
import KnShim.Lib.WriteLog

/-!
# AndrLeaf.Relocation — words, symbols and entries of relocation tables in memory

What both kinds of relocation tables have in common: an entry names a place, a type and a symbol.
Each access depends on the bytes of its own structure alone, so it gives the same in every memory
that has these bytes.
-/

namespace KnShim
namespace AndrLeaf

open Lib Memory

/-! ## Words -/

section Words

variable {cls : ElfClass}

theorem ElfClass.eight_mul_wordBytes (cls : ElfClass) : 8 * cls.wordBytes = cls.bits := by
  cases cls <;> rfl

theorem ElfClass.wordBytes_le (cls : ElfClass) : cls.wordBytes ≤ 2 ^ cls.bits := by
  cases cls <;> decide

/-- A word is loaded from its bytes. -/
theorem loadWord_of_read {m : Memory cls.bits} {a v : BitVec cls.bits}
    (h : m.read a cls.wordBytes = toLE cls.wordBytes v.toNat) : loadWord m a = v := by
  have hlt : v.toNat < 256 ^ cls.wordBytes := by
    rw [show (256 : Nat) = 2 ^ 8 from rfl, ← Nat.pow_mul, cls.eight_mul_wordBytes]
    exact v.isLt
  rw [loadWord, h, ofLE_toLE_of_lt hlt, BitVec.ofNat_toNat, BitVec.setWidth_eq]

/-- Storing what is there changes nothing. -/
theorem storeWord_loadWord (m : Memory cls.bits) (a : BitVec cls.bits) :
    storeWord m a (loadWord m a) = m := by
  have hlt : ofLE (m.read a cls.wordBytes) < 2 ^ cls.bits := by
    calc
      ofLE (m.read a cls.wordBytes) < 256 ^ (m.read a cls.wordBytes).length := ofLE_lt _
      _ = 2 ^ cls.bits := by
        rw [read_length, show (256 : Nat) = 2 ^ 8 from rfl, ← Nat.pow_mul,
          cls.eight_mul_wordBytes]
  have hbytes := toLE_ofLE (m.read a cls.wordBytes)
  rw [read_length] at hbytes
  rw [storeWord, loadWord, BitVec.toNat_ofNat, Nat.mod_eq_of_lt hlt, hbytes, write_read_self]

theorem loadWord_storeWord (m : Memory cls.bits) (a v : BitVec cls.bits) :
    loadWord (storeWord m a v) a = v :=
  loadWord_of_read (m.read_write_toLE a v.toNat cls.wordBytes_le)

theorem storeWord_storeWord (m : Memory cls.bits) (a v v' : BitVec cls.bits) :
    storeWord (storeWord m a v) a v' = storeWord m a v' :=
  write_write m a (by rw [toLE_length, toLE_length])

theorem storeWord_of_not_inRange (m : Memory cls.bits) {a p : BitVec cls.bits}
    (v : BitVec cls.bits) (h : ¬ InRange a cls.wordBytes p) : storeWord m a v p = m p :=
  write_of_not_inRange m (by rwa [toLE_length])

theorem loadWord_congr {m m' : Memory cls.bits} {a : BitVec cls.bits}
    (h : ∀ p, InRange a cls.wordBytes p → m p = m' p) : loadWord m a = loadWord m' a := by
  rw [loadWord, loadWord, read_congr cls.wordBytes_le h]

end Words

/-! ## Members of structures -/

/-- A member depends on the bytes of the structure alone. -/
theorem Field.load_congr {w : Nat} {f : Field} {m m' : Memory w} {a : BitVec w} {n : Nat}
    (hf : f.stop ≤ n) (hn : n ≤ 2 ^ w) (h : ∀ p, InRange a n p → m p = m' p) :
    f.load m a = f.load m' a := by
  have hsize : f.size ≤ 2 ^ w := by
    have hstop : f.start + f.size = f.stop := rfl
    omega
  rw [load, load, read_congr hsize fun p hp => h p (hp.of_offset hf hn).2]

section Symbols

variable {cls : ElfClass} {m m' : Memory cls.bits} {symtab : BitVec cls.bits} {i : Nat}

theorem LeafSym.size_le (cls : ElfClass) : LeafSym.size cls ≤ 2 ^ cls.bits := by
  cases cls <;> decide

theorem LeafSym.stValue_stop_le (cls : ElfClass) :
    (LeafSym.stValueField cls).stop ≤ LeafSym.size cls := by
  cases cls <;> decide

theorem LeafSym.stInfo_stop_le (cls : ElfClass) :
    (LeafSym.stInfoField cls).stop ≤ LeafSym.size cls := by
  cases cls <;> decide

theorem stValue_congr (h : ∀ p, InRange (symAt symtab i) (LeafSym.size cls) p → m p = m' p) :
    stValue m symtab i = stValue m' symtab i := by
  rw [stValue, stValue, Field.load_congr (LeafSym.stValue_stop_le cls) (LeafSym.size_le cls) h]

theorem stInfo_congr (h : ∀ p, InRange (symAt symtab i) (LeafSym.size cls) p → m p = m' p) :
    (LeafSym.stInfoField cls).load m (symAt symtab i) =
      (LeafSym.stInfoField cls).load m' (symAt symtab i) :=
  Field.load_congr (LeafSym.stInfo_stop_le cls) (LeafSym.size_le cls) h

end Symbols

/-! ## Entries of relocation tables -/

section Entries

variable {cls : ElfClass}

/-- `self->blob + rel->r_offset`. -/
def placeOf (blob : BitVec cls.bits) (m : Memory cls.bits) (rel : BitVec cls.bits) :
    BitVec cls.bits :=
  blob + BitVec.ofNat _ ((LeafRela.rOffset cls).load m rel)

/-- `LeafRelocSym(rel->r_info)`. -/
def symOf (m : Memory cls.bits) (rel : BitVec cls.bits) : Nat :=
  leafRelocSym cls ((LeafRela.rInfo cls).load m rel)

/-- `LeafRelocType(rel->r_info)`. -/
def typeOf (m : Memory cls.bits) (rel : BitVec cls.bits) : Nat :=
  leafRelocType cls ((LeafRela.rInfo cls).load m rel)

/-- Does the relocation read a symbol? -/
def RelocKind.usesSymbol : RelocKind → Bool
  | .globDat => true
  | .jumpSlot => true
  | .relative => false
  | .other => false

variable {blob rel : BitVec cls.bits} {m m' : Memory cls.bits} {n : Nat}

theorem LeafRela.relSize_le (cls : ElfClass) : LeafRela.relSize cls ≤ 2 ^ cls.bits := by
  cases cls <;> decide

theorem LeafRela.rOffset_stop_le (cls : ElfClass) :
    (LeafRela.rOffset cls).stop ≤ LeafRela.relSize cls := by
  cases cls <;> decide

theorem LeafRela.rInfo_stop_le (cls : ElfClass) :
    (LeafRela.rInfo cls).stop ≤ LeafRela.relSize cls := by
  cases cls <;> decide

theorem placeOf_congr (h : ∀ p, InRange rel (LeafRela.relSize cls) p → m p = m' p) :
    placeOf blob m rel = placeOf blob m' rel := by
  rw [placeOf, placeOf, Field.load_congr (LeafRela.rOffset_stop_le cls) (LeafRela.relSize_le cls) h]

theorem symOf_congr (h : ∀ p, InRange rel (LeafRela.relSize cls) p → m p = m' p) :
    symOf m rel = symOf m' rel := by
  rw [symOf, symOf, Field.load_congr (LeafRela.rInfo_stop_le cls) (LeafRela.relSize_le cls) h]

theorem typeOf_congr (h : ∀ p, InRange rel (LeafRela.relSize cls) p → m p = m' p) :
    typeOf m rel = typeOf m' rel := by
  rw [typeOf, typeOf, Field.load_congr (LeafRela.rInfo_stop_le cls) (LeafRela.relSize_le cls) h]

end Entries

/-! ## What an entry writes -/

section Writes

variable {cls : ElfClass}

/-- The write of a relocation, or of none. -/
def relocWrite (place : BitVec cls.bits) : Option (BitVec cls.bits) → BitVec cls.bits × Bytes
  | some v => (place, toLE cls.wordBytes v.toNat)
  | none => (place, [])

variable {place : BitVec cls.bits} {value : Option (BitVec cls.bits)}

theorem relocWrite_fst : (relocWrite place value).1 = place := by
  cases value <;> rfl

theorem relocWrite_length_le : (relocWrite place value).2.length ≤ cls.wordBytes := by
  cases value with
  | none => exact Nat.zero_le _
  | some v => exact Nat.le_of_eq (toLE_length _ _)

/-- Only the place is written to. -/
theorem inRange_of_covers_relocWrite {p : BitVec cls.bits}
    (h : Covers (relocWrite place value) p) : value.isSome ∧ InRange place cls.wordBytes p := by
  cases value with
  | none => exact absurd h (Nat.not_lt_zero _)
  | some v => exact ⟨rfl, by rwa [Covers, relocWrite, toLE_length] at h⟩

/-- Places that are apart give writes that are apart. -/
theorem relocWrite_apart {place' : BitVec cls.bits} {value' : Option (BitVec cls.bits)}
    (h : Apart place cls.wordBytes place' cls.wordBytes) :
    Apart (relocWrite place value).1 (relocWrite place value).2.length
      (relocWrite place' value').1 (relocWrite place' value').2.length := by
  rw [relocWrite_fst, relocWrite_fst]
  exact h.mono relocWrite_length_le relocWrite_length_le

/-- What the relocations leave in their places. -/
theorem loadWord_writeAll {m : Memory cls.bits} {log : List (BitVec cls.bits × Bytes)}
    (hlog : PairwiseApart log) {v : BitVec cls.bits} (hmem : relocWrite place (some v) ∈ log) :
    loadWord (m.writeAll log) place = v := by
  have hread := read_writeAll (m := m) hlog hmem
    (le_trans relocWrite_length_le cls.wordBytes_le)
  have hlength : (relocWrite place (some v)).2.length = cls.wordBytes := toLE_length _ _
  rw [hlength] at hread
  exact loadWord_of_read hread

end Writes

end AndrLeaf
end KnShim
