import KnShim.LeafHook.AArch64
import KnShim.LeafHook.Stub
import KnShim.Lib.A64
import KnShim.Lib.Bits

/-!
# LeafHook.AArch64Relocation — what moved A64 code loads

Every instruction that refers to its own address becomes a literal load of a datum behind the stub,
so the question is whether the datum is the value that the original would have loaded.  For `ADR`
and `ADRP` it is.  For `LDR` (literal) the source indexes the pointer to the literal with the
position of the instruction in the block, so the datum is read `i` words behind the literal.
-/

namespace KnShim
namespace LeafHook

open Lib

/-! ## The macros, field by field -/

section Macros

variable (w : BitVec 32)

theorem isAarch64Adr_iff :
    isAarch64Adr w ↔ w.extractLsb' 31 1 = 0b0#1 ∧ w.extractLsb' 24 5 = 0b10000#5 :=
  and_eq_iff_fields (by decide) (by decide) (by decide) (by decide) (by decide)

theorem isAarch64Adrp_iff :
    isAarch64Adrp w ↔ w.extractLsb' 31 1 = 0b1#1 ∧ w.extractLsb' 24 5 = 0b10000#5 :=
  and_eq_iff_fields (by decide) (by decide) (by decide) (by decide) (by decide)

theorem isAarch64LdrLiteral_iff :
    isAarch64LdrLiteral w ↔ w.extractLsb' 31 1 = 0b0#1 ∧ w.extractLsb' 24 6 = 0b011000#6 :=
  and_eq_iff_fields (by decide) (by decide) (by decide) (by decide) (by decide)

theorem aarch64AdrDecodeRd_eq : aarch64AdrDecodeRd w = (w.extractLsb' 0 5).setWidth 32 :=
  (BitVec.shiftLeft_zero _).trans (ushiftRight_and_mask w 0 (by decide))

theorem aarch64LdrLiteralDecodeRt_eq :
    aarch64LdrLiteralDecodeRt w = (w.extractLsb' 0 5).setWidth 32 :=
  (BitVec.shiftLeft_zero _).trans (ushiftRight_and_mask w 0 (by decide))

theorem aarch64LdrLiteralDecodeX_eq :
    aarch64LdrLiteralDecodeX w = (w.extractLsb' 30 1).setWidth 32 :=
  (BitVec.shiftLeft_zero _).trans (ushiftRight_and_mask w 30 (by decide))

/-- The bit that selects the register size selects the literal size. -/
theorem aarch64LdrLiteral_size :
    (if aarch64LdrLiteralDecodeX w ≠ 0 then 8 else 4) =
      A64.literalSize (w.extractLsb' 30 1 = 0b1#1) := by
  have hbit : ∀ x : BitVec 1,
      (if x.setWidth 32 ≠ 0 then 8 else 4) = A64.literalSize (x = 0b1#1) := by decide
  rw [aarch64LdrLiteralDecodeX_eq]
  exact hbit _

theorem aarch64LdrLiteralDecodeImm_eq :
    aarch64LdrLiteralDecodeImm w = (w.extractLsb' 5 19).setWidth 32 :=
  (BitVec.shiftLeft_zero _).trans (ushiftRight_and_mask w 5 (by decide))

theorem aarch64AdrDecodeImm_eq :
    aarch64AdrDecodeImm w = (w.extractLsb' 5 19 ++ w.extractLsb' 29 2).setWidth 32 := by
  have hlow : ((w >>> 29) &&& 0x3#32) <<< 0 = (w.extractLsb' 29 2).setWidth 32 :=
    (BitVec.shiftLeft_zero _).trans (ushiftRight_and_mask w 29 (by decide))
  have hhigh : (w >>> 5) &&& 0x7ffff#32 = (w.extractLsb' 5 19).setWidth 32 :=
    ushiftRight_and_mask w 5 (by decide)
  rw [aarch64AdrDecodeImm, hlow, hhigh]
  apply BitVec.eq_of_getLsbD_eq
  intro i hi
  rw [BitVec.getLsbD_or, BitVec.getLsbD_shiftLeft, BitVec.getLsbD_setWidth, BitVec.getLsbD_setWidth,
    BitVec.getLsbD_setWidth, BitVec.getLsbD_append]
  by_cases hlow : i < 2
  · simp [hi, hlow]
  · have hsub : i - 2 < 32 := by omega
    have hhigh : (w.extractLsb' 29 2).getLsbD i = false := BitVec.getLsbD_of_ge _ _ (by omega)
    simp [hi, hlow, hsub]

end Macros

/-- `LH_SEXT64` on a field. -/
theorem sext64_eq {l : Nat} (x : BitVec l) (hl : 0 < l ∧ l ≤ 32)
    (hones : ∀ i < 64, (sext64Nb l).getLsbD i = decide (l - 1 ≤ i)) :
    sext64 (x.setWidth 32) l = x.signExtend 64 := by
  have hbit : l - 1 < 32 := by omega
  -- the macro tests the sign bit of the field
  have hneg : sextIsNeg (x.setWidth 32) l = x.msb := by
    have hne : BitVec.twoPow 32 (l - 1) ≠ 0#32 := by
      intro h
      have hget := congrArg (fun v => v.getLsbD (l - 1)) h
      simp [hbit] at hget
    rw [sextIsNeg, ← BitVec.twoPow_eq, BitVec.and_twoPow, BitVec.getLsbD_setWidth,
      BitVec.msb_eq_getLsbD_last]
    cases x.getLsbD (l - 1) <;> simp [hbit, hne]
  -- and widens the field unsigned before it fills in the ones
  have hwiden : (x.setWidth 32).setWidth 64 = x.setWidth 64 :=
    by
      apply BitVec.eq_of_getLsbD_eq
      intro i hi
      rw [BitVec.getLsbD_setWidth, BitVec.getLsbD_setWidth, BitVec.getLsbD_setWidth]
      by_cases hlow : i < 32
      · simp [hi, hlow]
      · have hhigh : x.getLsbD i = false := BitVec.getLsbD_of_ge _ _ (by omega)
        simp [hhigh]
  rw [sext64, hneg, hwiden]
  exact signExtend_eq_or x hones

theorem sext64_21 (x : BitVec 21) : sext64 (x.setWidth 32) 21 = x.signExtend 64 :=
  sext64_eq x (by decide) (by decide)

theorem sext64_19 (x : BitVec 19) : sext64 (x.setWidth 32) 19 = x.signExtend 64 :=
  sext64_eq x (by decide) (by decide)

theorem makeAarch64LdrLiteral_eq (x imm rt : BitVec 32) :
    makeAarch64LdrLiteral x imm rt =
      place 32 0 (rt.setWidth 5) ||| place 32 5 (imm.setWidth 19) ||| place 32 24 0b011000#6 |||
        place 32 30 (x.setWidth 1) ||| place 32 31 0b0#1 := by
  rw [← and_mask_shiftLeft rt 0 (by decide : 0x1f#32 = _),
    ← and_mask_shiftLeft imm 5 (by decide : 0x7ffff#32 = _),
    ← and_mask_shiftLeft x 30 (by decide : 0x1#32 = _)]
  rfl

theorem decode_makeAarch64LdrLiteral (x imm rt : BitVec 32) :
    A64.decode (makeAarch64LdrLiteral x imm rt) =
      some (.ldrLiteral (x.setWidth 1 = 0b1#1) (rt.setWidth 5) (imm.setWidth 19)) := by
  rw [A64.decode, makeAarch64LdrLiteral_eq]
  -- every field that `decode` looks at lies in one of the placed fields
  simp (disch := omega) only [BitVec.extractLsb'_or, extractLsb'_place,
    extractLsb'_place_of_disjoint, BitVec.or_zero, BitVec.zero_or]
  rw [if_neg (by decide), if_neg (by decide), if_pos (by decide)]
  simp only [Nat.sub_self, BitVec.extractLsb'_eq_self]

/-! ## Items -/

/-- A literal load in the place of an instruction. -/
def aarch64LoadItem (x rt : BitVec 32) (datum : Bytes) : Item :=
  ⟨fun dist => makeAarch64LdrLiteral x (aarch64InsWords (BitVec.ofNat 64 dist)) rt, datum⟩

/-- The item that the loop makes of the `i`-th word. -/
def aarch64Item (mem : Memory 64) (oldBlock : BitVec 64) (i : Nat) : Item :=
  let ins := mem.load32 (wordAddr oldBlock i)
  if isAarch64Adr ins then
    aarch64LoadItem 1 (aarch64AdrDecodeRd ins)
      (toLE 8 (wordAddr oldBlock i + sext64 (aarch64AdrDecodeImm ins) 21).toNat)
  else if isAarch64Adrp ins then
    aarch64LoadItem 1 (aarch64AdrDecodeRd ins)
      (toLE 8 ((wordAddr oldBlock i &&& 0xfffffffffffff000#64) +
        (sext64 (aarch64AdrDecodeImm ins) 21 <<< 12)).toNat)
  else if isAarch64LdrLiteral ins then
    let size := if aarch64LdrLiteralDecodeX ins ≠ 0 then 8 else 4
    aarch64LoadItem (aarch64LdrLiteralDecodeX ins) (aarch64LdrLiteralDecodeRt ins)
      (mem.read (wordAddr oldBlock i + (sext64 (aarch64LdrLiteralDecodeImm ins) 19 <<< 2) +
        BitVec.ofNat 64 (size * i)) size)
  else
    copyItem ins

/-- The jump back to the code behind the block. -/
def aarch64JumpBack (oldBlock : BitVec 64) (blockSize : Nat) : List Item :=
  [aarch64LoadItem 1 16 (toLE 8 (wordAddr oldBlock blockSize).toNat), copyItem (makeAarch64Br 16)]

/-- The items of a whole stub. -/
def aarch64Items (mem : Memory 64) (oldBlock : BitVec 64) (blockSize : Nat) : List Item :=
  (List.range blockSize).map (aarch64Item mem oldBlock) ++ aarch64JumpBack oldBlock blockSize

variable {mem : Memory 64} {oldBlock : BitVec 64} {n i : Nat}

theorem aarch64Item_size (mem : Memory 64) (oldBlock : BitVec 64) (i : Nat) :
    (aarch64Item mem oldBlock i).datum.length ≤ 8 ∧
      (aarch64Item mem oldBlock i).datum.length % 4 = 0 := by
  unfold aarch64Item
  simp only
  split
  · simp [aarch64LoadItem]
  split
  · simp [aarch64LoadItem]
  split
  · split <;> simp [aarch64LoadItem]
  · simp [copyItem]

theorem aarch64InsOffset_eq {code data : LHStream} (h : code.tell ≤ 4 * (n + 2))
    (hn : n ≤ 31) :
    aarch64InsOffset n code data = BitVec.ofNat 64 (4 * (n + 2) - code.tell + data.tell) := by
  rw [aarch64InsOffset, Nat.mul_comm, BitVec.ofNat_add,
    BitVec.ofNat_sub_ofNat_of_le _ _ (by omega) h]

/-- A round of the loop pushes the item. -/
theorem rewriteAarch64Word_eq (streams : LHStream × LHStream)
    (h : streams.1.tell ≤ 4 * (n + 2)) (hn : n ≤ 31) :
    rewriteAarch64Word mem oldBlock n streams i =
      push (4 * (n + 2)) streams (aarch64Item mem oldBlock i) := by
  rcases streams with ⟨code, data⟩
  unfold rewriteAarch64Word aarch64Item
  simp only [aarch64InsOffset_eq h hn]
  split
  · rfl
  split
  · rfl
  split
  · split
    · rw [LHStream.write64_load]
      rfl
    · rw [LHStream.write32_load]
      rfl
  · rw [push, copyItem, LHStream.write_nil]

/-! ## The stub -/

/-- The streams after `k` rounds of the loop. -/
def aarch64Rounds (mem : Memory 64) (oldBlock : BitVec 64) (blockSize k : Nat) :
    LHStream × LHStream :=
  (List.range k).foldl (rewriteAarch64Word mem oldBlock blockSize) (LHStream.init, LHStream.init)

/-- The streams at the end. -/
def aarch64Final (mem : Memory 64) (oldBlock : BitVec 64) (blockSize : Nat) :
    LHStream × LHStream :=
  let (code, data) := aarch64Rounds mem oldBlock blockSize blockSize
  let offset := aarch64InsOffset blockSize code data
  let code := code.write32 (makeAarch64LdrLiteral 1 (aarch64InsWords offset) 16)
  (code.write32 (makeAarch64Br 16), data.write64 (wordAddr oldBlock blockSize))

theorem rewriteAArch64Block_eq (self : LHHooker 64) (mem : Memory 64) (oldBlock : BitVec 64)
    (blockSize : Nat) : rewriteAArch64Block self mem oldBlock blockSize =
      copyToNewBlock self mem (aarch64Final mem oldBlock blockSize).1
        (aarch64Final mem oldBlock blockSize).2 := rfl

/-- The streams hold the items, after each round and at the end. -/
theorem aarch64_streams (mem : Memory 64) (oldBlock : BitVec 64) (hn : n ≤ 31) :
    (∀ i ≤ n, Emitted (4 * (n + 2)) ((List.range i).map (aarch64Item mem oldBlock))
        (aarch64Rounds mem oldBlock n i)) ∧
      Emitted (4 * (n + 2)) (aarch64Items mem oldBlock n) (aarch64Final mem oldBlock n) := by
  rcases Emitted.rewritten (by rw [streamMaxSize]; omega) (by rw [streamMaxSize]; omega)
    (fun i => (aarch64Item_size mem oldBlock i).1)
    (fun streams _ h => rewriteAarch64Word_eq streams h hn)
    (aarch64LoadItem 1 16 (toLE 8 (wordAddr oldBlock n).toNat)) (Nat.le_of_eq (toLE_length _ _))
    (makeAarch64Br 16) with ⟨hrounds, hcode, hemitted⟩
  refine ⟨hrounds, ?_⟩
  rw [aarch64Final]
  simp only [aarch64Rounds, aarch64InsOffset_eq hcode hn]
  exact hemitted

theorem aarch64_emitted (mem : Memory 64) (oldBlock : BitVec 64) (hn : n ≤ 31) :
    ∃ streams, Emitted (4 * (n + 2)) (aarch64Items mem oldBlock n) streams ∧
      ∀ self, rewriteAArch64Block self mem oldBlock n =
        copyToNewBlock self mem streams.1 streams.2 :=
  ⟨_, (aarch64_streams mem oldBlock hn).2,
    fun self => rewriteAArch64Block_eq self mem oldBlock n⟩

/-- The distance is in the field of the word, as a number of words. -/
theorem decode_aarch64LoadItem (x rt : BitVec 32) (datum : Bytes) {d : Nat} (hd : d < 2 ^ 20) :
    A64.decode ((aarch64LoadItem x rt datum).word d) =
      some (.ldrLiteral (x.setWidth 1 = 0b1#1) (rt.setWidth 5) (BitVec.ofNat 19 (d / 4))) := by
  have himm : (aarch64InsWords (BitVec.ofNat 64 d)).setWidth 19 = BitVec.ofNat 19 (d / 4) := by
    apply BitVec.eq_of_toNat_eq
    simp only [aarch64InsWords, BitVec.toNat_setWidth, BitVec.toNat_ushiftRight,
      BitVec.toNat_ofNat, Nat.shiftRight_eq_div_pow]
    omega
  rw [aarch64LoadItem, decode_makeAarch64LdrLiteral, himm]

/-- A literal load reads the datum at the distance that it was made for. -/
theorem loads_aarch64LoadItem (m : Memory 64) (pc : BitVec 64) (x rt : BitVec 32) (datum : Bytes)
    {d : Nat} (hd : d < 2 ^ 20) (hwords : d % 4 = 0) :
    A64.loads m pc ((aarch64LoadItem x rt datum).word d) =
      some (rt.setWidth 5, A64.extend
        (m.read (pc + BitVec.ofNat 64 d) (A64.literalSize (x.setWidth 1 = 0b1#1)))) := by
  rw [A64.loads, decode_aarch64LoadItem x rt datum hd, Option.bind_some, A64.Instr.result,
    A64.literalAddr_ofNat pc hd hwords]

/-- The instruction in the place of a rewritten one loads its datum. -/
theorem loads_stub (self : LHHooker 64) (hn : n ≤ 31) (hi : i < n) {x rt : BitVec 32}
    {datum : Bytes} (hitem : aarch64Item mem oldBlock i = aarch64LoadItem x rt datum)
    (hdatum : datum.length = A64.literalSize (x.setWidth 1 = 0b1#1)) :
    let r := rewriteAArch64Block self mem oldBlock n
    A64.loads r.mem (wordAddr r.newBlock i) (r.mem.load32 (wordAddr r.newBlock i)) =
      some (rt.setWidth 5, A64.extend datum) := by
  intro r
  rcases aarch64_emitted mem oldBlock hn with ⟨streams, hemitted, hrun⟩
  -- the load was made for the distance at which its datum is
  rcases hemitted.fetch (fun i => (aarch64Item_size mem oldBlock i).2) self mem (by decide) hi with
    ⟨d, ⟨_, hle, hwords⟩, hfetch, hread⟩
  rw [← hrun self, hitem] at hfetch hread
  have hd : d < 2 ^ 20 := lt_of_le_of_lt hle (by decide)
  rw [hfetch, loads_aarch64LoadItem _ _ _ _ _ hd hwords, ← hdatum]
  exact congrArg (fun bs => some (rt.setWidth 5, A64.extend bs)) hread

/-! ## The originals -/

section Originals

variable {w : BitVec 32}

theorem decode_adr (h : isAarch64Adr w) :
    A64.decode w =
      some (.adr (w.extractLsb' 0 5) (w.extractLsb' 5 19 ++ w.extractLsb' 29 2)) :=
  if_pos ((isAarch64Adr_iff w).mp h)

theorem decode_adrp (h : isAarch64Adrp w) :
    A64.decode w =
      some (.adrp (w.extractLsb' 0 5) (w.extractLsb' 5 19 ++ w.extractLsb' 29 2)) := by
  rcases (isAarch64Adrp_iff w).mp h with ⟨hop, hclass⟩
  rw [A64.decode, hop, hclass, if_neg (by decide), if_pos (by decide)]

/-- The class bits of a literal load are not those of `ADR` and `ADRP`. -/
theorem isAarch64LdrLiteral_class (h : isAarch64LdrLiteral w) :
    w.extractLsb' 24 5 = 0b11000#5 := by
  calc
    w.extractLsb' 24 5 = (w.extractLsb' 24 6).extractLsb' 0 5 :=
      (extractLsb'_extractLsb' w (by decide : 0 + 5 ≤ 6)).symm
    _ = 0b11000#5 := by
      rw [((isAarch64LdrLiteral_iff w).mp h).2]
      decide

theorem decode_ldrLiteral (h : isAarch64LdrLiteral w) :
    A64.decode w =
      some (.ldrLiteral (w.extractLsb' 30 1 = 0b1#1) (w.extractLsb' 0 5) (w.extractLsb' 5 19)) := by
  rcases (isAarch64LdrLiteral_iff w).mp h with ⟨hop, hclass⟩
  rw [A64.decode, hop, isAarch64LdrLiteral_class h, hclass, if_neg (by decide),
    if_neg (by decide), if_pos (by decide)]

/-- The other instructions load nothing that depends on their address. -/
theorem loads_other (m : Memory 64) (pc : BitVec 64) (hadr : ¬ isAarch64Adr w)
    (hadrp : ¬ isAarch64Adrp w) (hldr : ¬ isAarch64LdrLiteral w) : A64.loads m pc w = none := by
  rw [isAarch64Adr_iff] at hadr
  rw [isAarch64Adrp_iff] at hadrp
  rw [isAarch64LdrLiteral_iff] at hldr
  rw [A64.loads, A64.decode, if_neg hadr, if_neg hadrp, if_neg hldr]
  split <;> rfl

end Originals

/-! ## Preservation -/

/-- Whatever the `i`-th instruction of the block loads, the one in its place loads too. -/
def AArch64Preserves (self : LHHooker 64) (mem : Memory 64) (oldBlock : BitVec 64) (n i : Nat) :
    Prop :=
  let r := rewriteAArch64Block self mem oldBlock n
  ∀ load, A64.loads mem (wordAddr oldBlock i) (mem.load32 (wordAddr oldBlock i)) = some load →
    A64.loads r.mem (wordAddr r.newBlock i) (r.mem.load32 (wordAddr r.newBlock i)) = some load

/-- If the `i`-th instruction loads a literal, then the memory `i` literals further on holds the
same bytes. -/
def LiteralRepeats (mem : Memory 64) (oldBlock : BitVec 64) (i : Nat) : Prop :=
  ∀ x rt imm, A64.decode (mem.load32 (wordAddr oldBlock i)) = some (.ldrLiteral x rt imm) →
    mem.read (A64.literalAddr (wordAddr oldBlock i) imm + BitVec.ofNat 64 (A64.literalSize x * i))
        (A64.literalSize x) =
      mem.read (A64.literalAddr (wordAddr oldBlock i) imm) (A64.literalSize x)

/-- A rewritten instruction is preserved when its datum is the value it loaded. -/
theorem aarch64Preserves_iff_of_item (self : LHHooker 64) (hn : n ≤ 31) (hi : i < n)
    {x rt : BitVec 32} {datum : Bytes} {v : BitVec 64}
    (hitem : aarch64Item mem oldBlock i = aarch64LoadItem x rt datum)
    (hdatum : datum.length = A64.literalSize (x.setWidth 1 = 0b1#1))
    (hload : A64.loads mem (wordAddr oldBlock i) (mem.load32 (wordAddr oldBlock i)) =
      some (rt.setWidth 5, v)) :
    AArch64Preserves self mem oldBlock n i ↔ A64.extend datum = v := by
  have hstub := loads_stub self hn hi hitem hdatum
  -- the one value it can load is `v` or it is not
  constructor
  · intro h
    have heq := (h _ hload).symm.trans hstub
    simp only [Option.some.injEq, Prod.mk.injEq, true_and] at heq
    exact heq.symm
  · rintro rfl load h
    rw [hload] at h
    rw [← h]
    exact hstub

theorem extend_toLE (v : BitVec 64) : A64.extend (toLE 8 v.toNat) = v := by
  apply BitVec.eq_of_toNat_eq
  rw [A64.extend, ofLE_toLE_of_lt v.isLt, BitVec.toNat_ofNat, Nat.mod_eq_of_lt v.isLt]

section Items

variable {w : BitVec 32} (hw : mem.load32 (wordAddr oldBlock i) = w)
include hw

theorem aarch64Item_adr (h : isAarch64Adr w) :
    aarch64Item mem oldBlock i = aarch64LoadItem 1 ((w.extractLsb' 0 5).setWidth 32)
      (toLE 8 (wordAddr oldBlock i +
        (w.extractLsb' 5 19 ++ w.extractLsb' 29 2).signExtend 64).toNat) := by
  simp only [aarch64Item, hw]
  rw [if_pos h, aarch64AdrDecodeRd_eq, aarch64AdrDecodeImm_eq, sext64_21]

theorem aarch64Item_adrp (h : isAarch64Adrp w) :
    aarch64Item mem oldBlock i = aarch64LoadItem 1 ((w.extractLsb' 0 5).setWidth 32)
      (toLE 8 ((wordAddr oldBlock i &&& ~~~0xfff#64) +
        ((w.extractLsb' 5 19 ++ w.extractLsb' 29 2).signExtend 64 <<< 12)).toNat) := by
  have hadr : ¬ isAarch64Adr w := by
    intro hadr
    exact absurd (hadr.symm.trans h) (by decide)
  simp only [aarch64Item, hw]
  rw [if_neg hadr, if_pos h, aarch64AdrDecodeRd_eq, aarch64AdrDecodeImm_eq, sext64_21]
  rfl

theorem aarch64Item_ldrLiteral (h : isAarch64LdrLiteral w) :
    let size := A64.literalSize (w.extractLsb' 30 1 = 0b1#1)
    aarch64Item mem oldBlock i =
      aarch64LoadItem ((w.extractLsb' 30 1).setWidth 32) ((w.extractLsb' 0 5).setWidth 32)
        (mem.read (A64.literalAddr (wordAddr oldBlock i) (w.extractLsb' 5 19) +
          BitVec.ofNat 64 (size * i)) size) := by
  intro size
  -- the class bits keep the three forms apart
  have hclass := isAarch64LdrLiteral_class h
  have hadr : ¬ isAarch64Adr w := by
    rw [isAarch64Adr_iff, hclass]
    exact fun hadr => absurd hadr.2 (by decide)
  have hadrp : ¬ isAarch64Adrp w := by
    rw [isAarch64Adrp_iff, hclass]
    exact fun hadrp => absurd hadrp.2 (by decide)
  have hsize : (if aarch64LdrLiteralDecodeX w ≠ 0 then 8 else 4) = size :=
    aarch64LdrLiteral_size w
  simp only [aarch64Item, hw]
  rw [if_neg hadr, if_neg hadrp, if_pos h, hsize, aarch64LdrLiteralDecodeRt_eq,
    aarch64LdrLiteralDecodeX_eq, aarch64LdrLiteralDecodeImm_eq, sext64_19]
  rfl

/-! ### The three forms -/

variable (self : LHHooker 64) (hn : n ≤ 31) (hi : i < n)
include hn hi

theorem aarch64Preserves_adr (h : isAarch64Adr w) : AArch64Preserves self mem oldBlock n i := by
  have hload : A64.loads mem (wordAddr oldBlock i) (mem.load32 (wordAddr oldBlock i)) =
      some (((w.extractLsb' 0 5).setWidth 32).setWidth 5, wordAddr oldBlock i +
        (w.extractLsb' 5 19 ++ w.extractLsb' 29 2).signExtend 64) := by
    rw [hw, A64.loads, decode_adr h, setWidth_setWidth_self _ (by decide)]
    rfl
  exact (aarch64Preserves_iff_of_item self hn hi (aarch64Item_adr hw h) (toLE_length _ _)
    hload).mpr (extend_toLE _)

theorem aarch64Preserves_adrp (h : isAarch64Adrp w) : AArch64Preserves self mem oldBlock n i := by
  have hload : A64.loads mem (wordAddr oldBlock i) (mem.load32 (wordAddr oldBlock i)) =
      some (((w.extractLsb' 0 5).setWidth 32).setWidth 5, (wordAddr oldBlock i &&& ~~~0xfff#64) +
        ((w.extractLsb' 5 19 ++ w.extractLsb' 29 2).signExtend 64 <<< 12)) := by
    rw [hw, A64.loads, decode_adrp h, setWidth_setWidth_self _ (by decide)]
    rfl
  exact (aarch64Preserves_iff_of_item self hn hi (aarch64Item_adrp hw h) (toLE_length _ _)
    hload).mpr (extend_toLE _)

theorem aarch64Preserves_ldrLiteral_iff (h : isAarch64LdrLiteral w) :
    AArch64Preserves self mem oldBlock n i ↔ LiteralRepeats mem oldBlock i := by
  have hdecode := decode_ldrLiteral h
  have hload : A64.loads mem (wordAddr oldBlock i) (mem.load32 (wordAddr oldBlock i)) =
      some (((w.extractLsb' 0 5).setWidth 32).setWidth 5, A64.extend
        (mem.read (A64.literalAddr (wordAddr oldBlock i) (w.extractLsb' 5 19))
          (A64.literalSize (w.extractLsb' 30 1 = 0b1#1)))) := by
    rw [hw, A64.loads, hdecode, setWidth_setWidth_self _ (by decide)]
    rfl
  have hsize : A64.literalSize (w.extractLsb' 30 1 = 0b1#1) ≤ 8 := by
    rw [A64.literalSize]
    split <;> decide
  have hdatum := Memory.read_length mem
    (A64.literalAddr (wordAddr oldBlock i) (w.extractLsb' 5 19) +
      BitVec.ofNat 64 (A64.literalSize (w.extractLsb' 30 1 = 0b1#1) * i))
    (A64.literalSize (w.extractLsb' 30 1 = 0b1#1))
  rw [aarch64Preserves_iff_of_item self hn hi (aarch64Item_ldrLiteral hw h)
    (by rw [hdatum, setWidth_setWidth_self _ (by decide)]) hload,
    A64.extend_inj (by rw [hdatum, Memory.read_length]) (by rw [hdatum]; exact hsize)]
  constructor
  · intro heq x rt imm hinstr
    rw [hw, hdecode] at hinstr
    cases hinstr
    exact heq
  · intro hrepeats
    exact hrepeats _ _ _ (by rw [hw, hdecode])

end Items

/-- An instruction of the block is preserved exactly when its literal repeats. -/
theorem aarch64Preserves_iff (self : LHHooker 64) (mem : Memory 64) (oldBlock : BitVec 64)
    (hn : n ≤ 31) (hi : i < n) :
    AArch64Preserves self mem oldBlock n i ↔ LiteralRepeats mem oldBlock i := by
  -- the rewriter and the decoder distinguish the same three forms
  generalize hw : mem.load32 (wordAddr oldBlock i) = w
  -- only literal loads can fail
  have hother : (∀ x rt imm, A64.decode w ≠ some (.ldrLiteral x rt imm)) →
      LiteralRepeats mem oldBlock i :=
    fun hne x rt imm h => absurd (hw ▸ h) (hne x rt imm)
  by_cases hadr : isAarch64Adr w
  · exact iff_of_true (aarch64Preserves_adr hw self hn hi hadr)
      (hother (by simp [decode_adr hadr]))
  by_cases hadrp : isAarch64Adrp w
  · exact iff_of_true (aarch64Preserves_adrp hw self hn hi hadrp)
      (hother (by simp [decode_adrp hadrp]))
  by_cases hldr : isAarch64LdrLiteral w
  · exact aarch64Preserves_ldrLiteral_iff hw self hn hi hldr
  -- the other instructions load nothing, whatever the rewriter does
  · have hnone := loads_other mem (wordAddr oldBlock i) hadr hadrp hldr
    have hnot : ∀ x rt imm, A64.decode w ≠ some (.ldrLiteral x rt imm) := by
      intro x rt imm hdecode
      rw [A64.loads, hdecode] at hnone
      cases hnone
    refine iff_of_true (fun load h => ?_) (hother hnot)
    rw [hw, hnone] at h
    cases h

/-- A block of four is moved faithfully exactly when its literals repeat. -/
theorem rewriteAArch64Block_preserves_iff (self : LHHooker 64) (mem : Memory 64)
    (oldBlock : BitVec 64) :
    (∀ i < 4, AArch64Preserves self mem oldBlock 4 i) ↔ ∀ i < 4, LiteralRepeats mem oldBlock i :=
  forall₂_congr fun _ hi => aarch64Preserves_iff self mem oldBlock (by decide) hi

/-- A literal load behind the first instruction: `ldr x1, #8` at `0x1004`. -/
theorem rewriteAArch64Block_not_preserves :
    ¬ ∀ i < 4, AArch64Preserves ⟨0x20000, 0xa000, 0, by decide, by decide⟩
      (Memory.write (Memory.write (fun _ => 0) 0x1004 [0x41, 0x00, 0x00, 0x58]) 0x100c [0x2a])
      0x1000 4 i := by
  intro h
  have hrepeats := (aarch64Preserves_iff _ _ _ (by decide) (by decide : 1 < 4)).mp (h 1 (by decide))
  have heq := hrepeats true 1 2 (by decide)
  exact absurd heq (by decide)

end LeafHook
end KnShim
