import KnShim.AndrLeaf.Relocation

/-!
# AndrLeaf.Rel — what `LeafDoRel` leaves in the places

The addends of a REL table are in the places themselves.  When the places are apart from each other,
from the table and from the symbols, each round of the loop finds the memory as it was at the start,
so the whole loop is a list of writes that is known then.

The values are compared with those of the platform ABI.  For `R_ARM_GLOB_DAT` the code clears bit 0
of any odd symbol, and the ABI only of functions.
-/

namespace KnShim
namespace AndrLeaf

open Lib Memory

/-! ## Values of `R_ARM_GLOB_DAT` -/

section GlobDat

variable {w : Nat}

/-- What both statements of the code come to. -/
def armCodeValue (thumb : Prop) [Decidable thumb] (s a : BitVec w) : BitVec w :=
  (a + if s &&& 1 ≠ 0 then s ^^^ 1 else s) ||| if thumb then 1 else 0

/-- `(S + A) | T`, where `S` is without bit 0 only when `T` is 1. -/
def armAbiValue (thumb : Prop) [Decidable thumb] (s a : BitVec w) : BitVec w :=
  if thumb then ((s &&& ~~~1) + a) ||| 1 else s + a

theorem xor_one_ne (hw : 0 < w) (s : BitVec w) : s ^^^ 1 ≠ s := by
  intro h
  have hbit := congrArg (fun v => v.getLsbD 0) h
  simp [hw] at hbit

/-- Bit 0 of an odd number is cleared by an exclusive or. -/
theorem xor_one_of_odd {s : BitVec w} (h : s &&& 1 ≠ 0) : s ^^^ 1 = s &&& ~~~1 := by
  have hbit : s.getLsbD 0 = true := by
    by_contra hzero
    apply h
    apply BitVec.eq_of_getLsbD_eq
    intro i hi
    by_cases hi0 : i = 0
    · subst hi0
      simp [hzero]
    · simp [hi0]
  apply BitVec.eq_of_getLsbD_eq
  intro i hi
  by_cases hi0 : i = 0
  · subst hi0
    simp [hbit, hi]
  · simp [hi0, hi]

theorem or_zero_right (s : BitVec w) : s ||| 0 = s := BitVec.or_zero

/-- The values differ for odd numbers that are not to be called as Thumb code. -/
theorem armCodeValue_eq_iff (hw : 0 < w) {thumb : Prop} [Decidable thumb] {s a : BitVec w}
    (hodd : thumb → s &&& 1 ≠ 0) :
    armCodeValue thumb s a = armAbiValue thumb s a ↔ ¬ (s &&& 1 ≠ 0 ∧ ¬ thumb) := by
  by_cases hthumb : thumb
  · -- both clear bit 0 and set it again
    have heq : armCodeValue thumb s a = armAbiValue thumb s a := by
      rw [armCodeValue, armAbiValue, if_pos hthumb, if_pos hthumb, if_pos (hodd hthumb),
        xor_one_of_odd (hodd hthumb), BitVec.add_comm]
    exact iff_of_true heq fun h => h.2 hthumb
  · have habi : armAbiValue thumb s a = a + s := by
      rw [armAbiValue, if_neg hthumb, BitVec.add_comm]
    rw [habi, armCodeValue, if_neg hthumb, or_zero_right]
    by_cases hs : s &&& 1 ≠ 0
    · -- bit 0 is cleared all the same
      rw [if_pos hs]
      refine iff_of_false (fun h => ?_) fun h => h ⟨hs, hthumb⟩
      exact xor_one_ne hw s ((BitVec.add_right_inj a).mp h)
    · rw [if_neg hs]
      exact iff_of_true rfl fun h => hs h.1

end GlobDat

/-! ## Entries -/

section Entry

variable (platform : Platform) (blob symtab : BitVec platform.cls.bits)
  (m : Memory platform.cls.bits) (rel : BitVec platform.cls.bits)

/-- What kind of relocation an entry of a REL table is. -/
def relKindOf : RelocKind := platform.relKind (typeOf m rel)

/-- `sym->st_value`. -/
def relSymbol : BitVec platform.cls.bits := stValue m symtab (symOf m rel)

/-- `LeafSymType(sym->st_info) == STT_FUNC && (sym->st_value & 1)` -/
def IsThumb : Prop :=
  leafSymType ((LeafSym.stInfoField platform.cls).load m (symAt symtab (symOf m rel))) = sttFunc ∧
    relSymbol platform symtab m rel &&& 1 ≠ 0

instance : Decidable (IsThumb platform symtab m rel) := inferInstanceAs (Decidable (_ ∧ _))

/-- The value that the code stores. -/
def relValue : Option (BitVec platform.cls.bits) :=
  let a := loadWord m (placeOf blob m rel)
  let s := relSymbol platform symtab m rel
  match relKindOf platform m rel with
  | .relative => some (blob + a)
  | .globDat =>
      some (if platform = .arm then armCodeValue (IsThumb platform symtab m rel) s a else s)
  | .jumpSlot => some s
  | .other => none

/-- The value that the ABI of the platform defines. -/
def abiValue : Option (BitVec platform.cls.bits) :=
  let a := loadWord m (placeOf blob m rel)
  let s := relSymbol platform symtab m rel
  match relKindOf platform m rel with
  | .relative => some (blob + a)
  | .globDat =>
      some (if platform = .arm then armAbiValue (IsThumb platform symtab m rel) s a else s)
  | .jumpSlot => some s
  | .other => none

/-- An `R_ARM_GLOB_DAT` relocation with an odd symbol that is no function. -/
def OddData : Prop :=
  platform = .arm ∧ relKindOf platform m rel = .globDat ∧
    relSymbol platform symtab m rel &&& 1 ≠ 0 ∧ ¬ IsThumb platform symtab m rel

instance : Decidable (OddData platform symtab m rel) := inferInstanceAs (Decidable (_ ∧ _))

/-- `&relocs[i]`. -/
def relAt (relocs : BitVec platform.cls.bits) (i : Nat) : BitVec platform.cls.bits :=
  relocs + BitVec.ofNat _ (i * LeafRela.relSize platform.cls)

/-- What the round for an entry writes. -/
def relWrite : BitVec platform.cls.bits × Bytes :=
  relocWrite (placeOf blob m rel) (relValue platform blob symtab m rel)

/-- What is read for an entry: the entry, its place and its symbol. -/
def RelReads (p : BitVec platform.cls.bits) : Prop :=
  InRange rel (LeafRela.relSize platform.cls) p ∨
    InRange (placeOf blob m rel) platform.cls.wordBytes p ∨
      (relKindOf platform m rel).usesSymbol ∧
        InRange (symAt symtab (symOf m rel)) (LeafSym.size platform.cls) p

end Entry

section Values

variable {platform : Platform} {blob symtab : BitVec platform.cls.bits}
  {m : Memory platform.cls.bits} {rel : BitVec platform.cls.bits}

theorem Platform.bits_pos (platform : Platform) : 0 < platform.cls.bits := by
  cases platform <;> decide

/-- The code stores something exactly when the ABI defines something. -/
theorem relValue_isSome :
    (relValue platform blob symtab m rel).isSome = (abiValue platform blob symtab m rel).isSome := by
  rw [relValue, abiValue]
  cases relKindOf platform m rel <;> rfl

/-- The values are the same except for odd symbols that are no functions. -/
theorem relValue_eq_abiValue_iff :
    relValue platform blob symtab m rel = abiValue platform blob symtab m rel ↔
      ¬ OddData platform symtab m rel := by
  rw [relValue, abiValue, OddData]
  cases hkind : relKindOf platform m rel with
  | relative => simp
  | jumpSlot => simp
  | other => simp
  | globDat =>
      have hodd : IsThumb platform symtab m rel → relSymbol platform symtab m rel &&& 1 ≠ 0 :=
        fun h => h.2
      have hvalues := armCodeValue_eq_iff (a := loadWord m (placeOf blob m rel))
        platform.bits_pos hodd
      by_cases harm : platform = .arm
      · simp only [if_pos harm, Option.some.injEq, hvalues]
        exact not_congr ⟨fun h => ⟨harm, trivial, h⟩, fun h => h.2.2⟩
      · simp only [if_neg harm, true_iff]
        exact fun h => harm h.1

theorem abiValue_isSome_of_oddData (blob : BitVec platform.cls.bits)
    (h : OddData platform symtab m rel) :
    (abiValue platform blob symtab m rel).isSome := by
  rw [abiValue, h.2.1]
  rfl

end Values

/-! ## Rounds of the loop -/

section Rounds

variable {platform : Platform} {blob symtab : BitVec platform.cls.bits}
  {m m' : Memory platform.cls.bits} {rel : BitVec platform.cls.bits}

/-- An entry is understood the same way in memories that agree on what is read for it. -/
theorem relReads_congr (h : ∀ p, RelReads platform blob symtab m rel p → m' p = m p) :
    placeOf blob m' rel = placeOf blob m rel ∧
      relValue platform blob symtab m' rel = relValue platform blob symtab m rel := by
  have hentry : ∀ p, InRange rel (LeafRela.relSize platform.cls) p → m' p = m p :=
    fun p hp => h p (Or.inl hp)
  have hplace : placeOf blob m' rel = placeOf blob m rel := placeOf_congr hentry
  have hkind : relKindOf platform m' rel = relKindOf platform m rel := by
    rw [relKindOf, relKindOf, typeOf_congr hentry]
  have hold : loadWord m' (placeOf blob m rel) = loadWord m (placeOf blob m rel) :=
    loadWord_congr fun p hp => h p (Or.inr (Or.inl hp))
  refine ⟨hplace, ?_⟩
  rw [relValue, relValue, hkind, hplace, hold]
  by_cases huses : (relKindOf platform m rel).usesSymbol
  · have hsymEntry : ∀ p, InRange (symAt symtab (symOf m rel)) (LeafSym.size platform.cls) p →
        m' p = m p := fun p hp => h p (Or.inr (Or.inr ⟨huses, hp⟩))
    have hsym : relSymbol platform symtab m' rel = relSymbol platform symtab m rel := by
      rw [relSymbol, relSymbol, symOf_congr hentry, stValue_congr hsymEntry]
    have hthumb : IsThumb platform symtab m' rel ↔ IsThumb platform symtab m rel := by
      rw [IsThumb, IsThumb, hsym, symOf_congr hentry, stInfo_congr hsymEntry]
    simp only [hsym, armCodeValue, hthumb]
  · -- the other kinds do not depend on the symbol
    cases hcase : relKindOf platform m rel with
    | relative => rfl
    | other => rfl
    | globDat => exact absurd (by rw [hcase]; rfl) huses
    | jumpSlot => exact absurd (by rw [hcase]; rfl) huses

/-- Both statements for `R_ARM_GLOB_DAT` together, when they do not disturb the symbol. -/
theorem armGlobDat_eq {place : BitVec platform.cls.bits}
    (hapart : Apart place platform.cls.wordBytes (symAt symtab (symOf m rel))
      (LeafSym.size platform.cls)) :
    armGlobDat symtab place (symOf m rel) m =
      storeWord m place (armCodeValue (IsThumb platform symtab m rel)
        (relSymbol platform symtab m rel) (loadWord m place)) := by
  -- the symbol is the same after the first statement
  have hsame : ∀ v p, InRange (symAt symtab (symOf m rel)) (LeafSym.size platform.cls) p →
      storeWord m place v p = m p :=
    fun v p hp => storeWord_of_not_inRange m v fun hplace => hapart p hplace hp
  rw [armGlobDat]
  simp only [stValue_congr (hsame _), stInfo_congr (hsame _), loadWord_storeWord,
    storeWord_storeWord]
  rfl

/-- A round writes the value to the place. -/
theorem relStep_eq (relocs : BitVec platform.cls.bits) (i : Nat)
    (hsym : (relKindOf platform m (relAt platform relocs i)).usesSymbol →
      Apart (placeOf blob m (relAt platform relocs i)) platform.cls.wordBytes
        (symAt symtab (symOf m (relAt platform relocs i))) (LeafSym.size platform.cls)) :
    relStep platform blob symtab relocs m i =
      m.write (relWrite platform blob symtab m (relAt platform relocs i)).1
        (relWrite platform blob symtab m (relAt platform relocs i)).2 := by
  have hstep : relStep platform blob symtab relocs m i =
      match relKindOf platform m (relAt platform relocs i) with
      | .relative => storeWord m (placeOf blob m (relAt platform relocs i))
          (blob + loadWord m (placeOf blob m (relAt platform relocs i)))
      | .globDat =>
          if platform = .arm then
            armGlobDat symtab (placeOf blob m (relAt platform relocs i))
              (symOf m (relAt platform relocs i)) m
          else
            storeWord m (placeOf blob m (relAt platform relocs i))
              (relSymbol platform symtab m (relAt platform relocs i))
      | .jumpSlot => storeWord m (placeOf blob m (relAt platform relocs i))
          (relSymbol platform symtab m (relAt platform relocs i))
      | .other => m := rfl
  rw [hstep, relWrite, relValue]
  cases hkind : relKindOf platform m (relAt platform relocs i) with
  | relative => rfl
  | jumpSlot => rfl
  | other => rfl
  | globDat =>
      by_cases harm : platform = .arm
      · simp only [if_pos harm]
        exact armGlobDat_eq (hsym (by rw [hkind]; rfl))
      · simp only [if_neg harm]
        rfl

end Rounds

/-! ## The loop -/

section Table

variable (platform : Platform) (blob symtab relocs : BitVec platform.cls.bits) (count : Nat)
  (m : Memory platform.cls.bits)

/-- The places are apart from each other, and from the table and the symbols that it uses. -/
structure RelTable : Prop where
  places : ∀ i < count, ∀ j < count, i ≠ j →
    Apart (placeOf blob m (relAt platform relocs i)) platform.cls.wordBytes
      (placeOf blob m (relAt platform relocs j)) platform.cls.wordBytes
  entries : ∀ i < count, ∀ j < count,
    Apart (placeOf blob m (relAt platform relocs i)) platform.cls.wordBytes
      (relAt platform relocs j) (LeafRela.relSize platform.cls)
  symbols : ∀ i < count, ∀ j < count,
    (relKindOf platform m (relAt platform relocs j)).usesSymbol →
      Apart (placeOf blob m (relAt platform relocs i)) platform.cls.wordBytes
        (symAt symtab (symOf m (relAt platform relocs j))) (LeafSym.size platform.cls)

/-- Each place holds its value as the ABI defines it, and all other memory is unchanged. -/
def RelApplied (m' : Memory platform.cls.bits) : Prop :=
  (∀ i < count, ∀ v, abiValue platform blob symtab m (relAt platform relocs i) = some v →
    loadWord m' (placeOf blob m (relAt platform relocs i)) = v) ∧
    ∀ p, (∀ i < count, (abiValue platform blob symtab m (relAt platform relocs i)).isSome →
      ¬ InRange (placeOf blob m (relAt platform relocs i)) platform.cls.wordBytes p) →
        m' p = m p

variable {platform blob symtab relocs count m}

/-- The writes of the loop are known when it starts. -/
theorem leafDoRel_eq (h : RelTable platform blob symtab relocs count m) :
    leafDoRel platform blob symtab relocs count m = m.writeAll
      ((List.range count).map fun i =>
        relWrite platform blob symtab m (relAt platform relocs i)) := by
  apply foldl_eq_writeAll fun i => RelReads platform blob symtab m (relAt platform relocs i)
  · intro i hi m' hagree
    have hlt := List.mem_range.mp hi
    rcases relReads_congr hagree with ⟨hplace, hvalue⟩
    have hentry : ∀ p, InRange (relAt platform relocs i) (LeafRela.relSize platform.cls) p →
        m' p = m p := fun p hp => hagree p (Or.inl hp)
    have hkind : relKindOf platform m' (relAt platform relocs i) =
        relKindOf platform m (relAt platform relocs i) := by
      rw [relKindOf, relKindOf, typeOf_congr hentry]
    rw [relStep_eq, relWrite, relWrite, hplace, hvalue]
    rw [hplace, hkind, symOf_congr hentry]
    exact h.symbols i hlt i hlt
  · -- a place is apart from everything that is read later
    refine List.pairwise_lt_range.imp_of_mem fun {i j} hi hj hlt p hcovers hreads => ?_
    have hilt := List.mem_range.mp hi
    have hjlt := List.mem_range.mp hj
    have hplace := (inRange_of_covers_relocWrite hcovers).2
    rcases hreads with hentry | hother | ⟨huses, hsym⟩
    · exact h.entries i hilt j hjlt p hplace hentry
    · exact h.places i hilt j hjlt (Nat.ne_of_lt hlt) p hplace hother
    · exact h.symbols i hilt j hjlt huses p hplace hsym

theorem RelTable.writes_apart (h : RelTable platform blob symtab relocs count m) :
    PairwiseApart ((List.range count).map fun i =>
      relWrite platform blob symtab m (relAt platform relocs i)) := by
  rw [PairwiseApart, List.pairwise_map]
  refine List.pairwise_lt_range.imp_of_mem fun {i j} hi hj hlt => ?_
  exact relocWrite_apart
    (h.places i (List.mem_range.mp hi) j (List.mem_range.mp hj) (Nat.ne_of_lt hlt))

/-- What the code stores is there in the end. -/
theorem loadWord_leafDoRel (h : RelTable platform blob symtab relocs count m) {i : Nat}
    (hi : i < count) {v : BitVec platform.cls.bits}
    (hv : relValue platform blob symtab m (relAt platform relocs i) = some v) :
    loadWord (leafDoRel platform blob symtab relocs count m)
      (placeOf blob m (relAt platform relocs i)) = v := by
  rw [leafDoRel_eq h]
  apply loadWord_writeAll h.writes_apart
  rw [← hv]
  exact List.mem_map.mpr ⟨i, List.mem_range.mpr hi, rfl⟩

/-- Nothing else is changed. -/
theorem leafDoRel_frame (h : RelTable platform blob symtab relocs count m)
    {p : BitVec platform.cls.bits}
    (hp : ∀ i < count, (relValue platform blob symtab m (relAt platform relocs i)).isSome →
      ¬ InRange (placeOf blob m (relAt platform relocs i)) platform.cls.wordBytes p) :
    leafDoRel platform blob symtab relocs count m p = m p := by
  rw [leafDoRel_eq h]
  apply writeAll_of_not_covered
  intro entry hentry hcovers
  rcases List.mem_map.mp hentry with ⟨i, hi, rfl⟩
  rcases inRange_of_covers_relocWrite hcovers with ⟨hsome, hplace⟩
  exact hp i (List.mem_range.mp hi) hsome hplace

/-- The loop does what the ABI says exactly when no `R_ARM_GLOB_DAT` relocation has an odd symbol
that is no function. -/
theorem leafDoRel_applied_iff (h : RelTable platform blob symtab relocs count m) :
    RelApplied platform blob symtab relocs count m
        (leafDoRel platform blob symtab relocs count m) ↔
      ∀ i < count, ¬ OddData platform symtab m (relAt platform relocs i) := by
  constructor
  · rintro ⟨hvalues, _⟩ i hi hodd
    have hsome := abiValue_isSome_of_oddData blob hodd
    rcases Option.isSome_iff_exists.mp hsome with ⟨v, hv⟩
    rcases Option.isSome_iff_exists.mp (relValue_isSome.trans hsome) with ⟨u, hu⟩
    -- the place holds both values
    have heq : u = v := (loadWord_leafDoRel h hi hu).symm.trans (hvalues i hi v hv)
    exact relValue_eq_abiValue_iff.mp (hu.trans (heq ▸ hv.symm)) hodd
  · intro hnone
    have hsame : ∀ i < count, relValue platform blob symtab m (relAt platform relocs i) =
        abiValue platform blob symtab m (relAt platform relocs i) :=
      fun i hi => relValue_eq_abiValue_iff.mpr (hnone i hi)
    refine ⟨fun i hi v hv => loadWord_leafDoRel h hi ((hsame i hi).trans hv), fun p hp => ?_⟩
    apply leafDoRel_frame h
    intro i hi hsome
    exact hp i hi (relValue_isSome.symm.trans hsome)

end Table

/-- Two relocations, two symbols and two places.  The first relocation is `R_ARM_GLOB_DAT` with the
second symbol, whose value is odd. -/
def Sample.rel (info : UInt8) : Memory (Platform.cls .arm).bits := fun p =>
  (toLE 4 0x40 ++ toLE 4 0x115 ++ toLE 4 0x44 ++ toLE 4 0x17 ++ List.replicate 20 0 ++
    toLE 4 0x2001 ++ toLE 4 4 ++ [info, 0] ++ toLE 2 0xfff1).getD p.toNat 0

theorem Sample.rel_table (info : UInt8) (h : info = 0x11 ∨ info = 0x12) :
    RelTable .arm 0 0x10 0 2 (Sample.rel info) where
  places := by
    have hfar : ∀ i < 2, ∀ j < 2, i ≠ j →
        4 ≤ (placeOf 0 (Sample.rel info) (relAt .arm 0 j) -
          placeOf 0 (Sample.rel info) (relAt .arm 0 i)).toNat := by
      rcases h with rfl | rfl <;> decide +kernel
    intro i hi j hj hne
    exact apart_of_le_sub (hfar i hi j hj hne) (hfar j hj i hi hne.symm)
  entries := by
    have hfar : ∀ i < 2, ∀ j < 2,
        4 ≤ (relAt .arm 0 j - placeOf 0 (Sample.rel info) (relAt .arm 0 i)).toNat ∧
          8 ≤ (placeOf 0 (Sample.rel info) (relAt .arm 0 i) - relAt .arm 0 j).toNat := by
      rcases h with rfl | rfl <;> decide +kernel
    intro i hi j hj
    exact apart_of_le_sub (hfar i hi j hj).1 (hfar i hi j hj).2
  symbols := by
    have hfar : ∀ i < 2, ∀ j < 2,
        4 ≤ (symAt 0x10 (symOf (Sample.rel info) (relAt .arm 0 j)) -
          placeOf 0 (Sample.rel info) (relAt .arm 0 i)).toNat ∧
        16 ≤ (placeOf 0 (Sample.rel info) (relAt .arm 0 i) -
          symAt 0x10 (symOf (Sample.rel info) (relAt .arm 0 j))).toNat := by
      rcases h with rfl | rfl <;> decide +kernel
    intro i hi j hj _
    exact apart_of_le_sub (hfar i hi j hj).1 (hfar i hi j hj).2

/-- The address of a function keeps its bit 0. -/
theorem leafDoRel_applied_iff_function :
    RelApplied .arm 0 0x10 0 2 (Sample.rel 0x12) (leafDoRel .arm 0 0x10 0 2 (Sample.rel 0x12)) ∧
      ∀ i < 2, ¬ OddData .arm 0x10 (Sample.rel 0x12) (relAt .arm 0 i) := by
  have hnone : ∀ i < 2, ¬ OddData .arm 0x10 (Sample.rel 0x12) (relAt .arm 0 i) := by
    decide +kernel
  exact ⟨(leafDoRel_applied_iff (Sample.rel_table 0x12 (Or.inr rfl))).mpr hnone, hnone⟩

/-- The address of a variable gets lost. -/
theorem rel_not_applied :
    RelTable .arm 0 0x10 0 2 (Sample.rel 0x11) ∧
      ¬ RelApplied .arm 0 0x10 0 2 (Sample.rel 0x11)
        (leafDoRel .arm 0 0x10 0 2 (Sample.rel 0x11)) := by
  refine ⟨Sample.rel_table 0x11 (Or.inl rfl), fun h => ?_⟩
  have habi : abiValue .arm 0 0x10 (Sample.rel 0x11) (relAt .arm 0 0) = some 0x2001 := by
    decide +kernel
  have hvalue := h.1 0 (by decide) _ habi
  have hstored : loadWord (leafDoRel .arm 0 0x10 0 2 (Sample.rel 0x11))
      (placeOf 0 (Sample.rel 0x11) (relAt .arm 0 0)) = 0x2000 := by
    decide +kernel
  exact absurd (hstored.symm.trans hvalue) (by decide)

end AndrLeaf
end KnShim
