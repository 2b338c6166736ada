import KnShim.LeafHook.AArch32
import KnShim.LeafHook.Stub
import KnShim.Lib.A32
import KnShim.Lib.Bits

/-!
# LeafHook.AArch32Relocation — what moved A32 code loads

As on AArch64, an instruction that refers to its own address becomes a literal load of a datum
behind the stub.  Literal loads are moved faithfully.  `ADR` with `ADD` is, unless its immediate is
rotated: the source takes the twelve bits as they are.  `ADR` with `SUB` never is: the test for it is
the test for `ADD`, so the word is copied and computes an address relative to the stub.
-/

namespace KnShim
namespace LeafHook

open Lib

/-! ## The macros, field by field -/

section Macros

variable (w : BitVec 32)

theorem isAarch32Adr_iff : isAarch32Adr w ↔ w.extractLsb' 16 16 = 0b1110001010001111#16 :=
  and_eq_iff_field (by decide) (by decide) (by decide)

theorem isAarch32LdrLiteral_iff :
    isAarch32LdrLiteral w ↔
      w.extractLsb' 24 8 = 0b11100101#8 ∧ w.extractLsb' 16 7 = 0b0011111#7 :=
  and_eq_iff_fields (by decide) (by decide) (by decide) (by decide) (by decide)

theorem aarch32AdrDecodeRd_eq : aarch32AdrDecodeRd w = (w.extractLsb' 12 4).setWidth 32 :=
  (BitVec.shiftLeft_zero _).trans (ushiftRight_and_mask w 12 (by decide))

theorem aarch32AdrDecodeImm_eq : aarch32AdrDecodeImm w = (w.extractLsb' 0 12).setWidth 32 :=
  (BitVec.shiftLeft_zero _).trans (ushiftRight_and_mask w 0 (by decide))

theorem aarch32LdrLiteralDecodeU_eq :
    aarch32LdrLiteralDecodeU w = (w.extractLsb' 23 1).setWidth 32 :=
  (BitVec.shiftLeft_zero _).trans (ushiftRight_and_mask w 23 (by decide))

theorem aarch32LdrLiteralDecodeRt_eq :
    aarch32LdrLiteralDecodeRt w = (w.extractLsb' 12 4).setWidth 32 :=
  (BitVec.shiftLeft_zero _).trans (ushiftRight_and_mask w 12 (by decide))

theorem aarch32LdrLiteralDecodeImm_eq :
    aarch32LdrLiteralDecodeImm w = (w.extractLsb' 0 12).setWidth 32 :=
  (BitVec.shiftLeft_zero _).trans (ushiftRight_and_mask w 0 (by decide))

end Macros

theorem makeAarch32LdrLiteral_eq (u rt imm : BitVec 32) :
    makeAarch32LdrLiteral u rt imm =
      place 32 0 (imm.setWidth 12) ||| place 32 12 (rt.setWidth 4) ||| place 32 16 0b0011111#7 |||
        place 32 23 (u.setWidth 1) ||| place 32 24 0b11100101#8 := by
  rw [← and_mask_shiftLeft imm 0 (by decide : 0xfff#32 = _),
    ← and_mask_shiftLeft rt 12 (by decide : 0xf#32 = _),
    ← and_mask_shiftLeft u 23 (by decide : 0x1#32 = _)]
  rfl

/-- The upper half of a literal load, whatever its operands. -/
theorem ldrLiteral_upper {w : BitVec 32} (hclass : w.extractLsb' 24 8 = 0b11100101#8) :
    w.extractLsb' 16 16 ≠ 0b1110001010001111#16 ∧ w.extractLsb' 16 16 ≠ 0b1110001001001111#16 := by
  -- the two `ADR` forms differ from it in the upper byte
  have hpart : (w.extractLsb' 16 16).extractLsb' 8 8 = 0b11100101#8 := by
    rw [extractLsb'_extractLsb' w (by decide : 8 + 8 ≤ 16), hclass]
  constructor <;>
  · intro h
    rw [h] at hpart
    exact absurd hpart (by decide)

theorem decode_of_ldrLiteral {w : BitVec 32} (h : isAarch32LdrLiteral w) :
    A32.decode w =
      some (.ldrLiteral (w.extractLsb' 23 1 = 0b1#1) (w.extractLsb' 12 4) (w.extractLsb' 0 12)) := by
  have hfields := (isAarch32LdrLiteral_iff w).mp h
  rcases ldrLiteral_upper hfields.1 with ⟨hadd, hsub⟩
  rw [A32.decode, if_neg hadd, if_neg hsub, if_pos hfields]

theorem decode_makeAarch32LdrLiteral (u rt imm : BitVec 32) :
    A32.decode (makeAarch32LdrLiteral u rt imm) =
      some (.ldrLiteral (u.setWidth 1 = 0b1#1) (rt.setWidth 4) (imm.setWidth 12)) := by
  have hldr : isAarch32LdrLiteral (makeAarch32LdrLiteral u rt imm) := by
    rw [isAarch32LdrLiteral_iff, makeAarch32LdrLiteral_eq]
    simp (disch := omega) only [BitVec.extractLsb'_or, extractLsb'_place,
      extractLsb'_place_of_disjoint, BitVec.or_zero, BitVec.zero_or]
    decide
  rw [decode_of_ldrLiteral hldr, makeAarch32LdrLiteral_eq]
  simp (disch := omega) only [BitVec.extractLsb'_or, extractLsb'_place,
    extractLsb'_place_of_disjoint, BitVec.or_zero, BitVec.zero_or, Nat.sub_self,
    BitVec.extractLsb'_eq_self]

/-! ## Items -/

/-- A literal load in the place of an instruction. -/
def aarch32LoadItem (rt : BitVec 32) (datum : BitVec 32) : Item :=
  ⟨fun dist => makeAarch32LdrLiteral 1 rt (BitVec.ofNat 32 dist - 8), toLE 4 datum.toNat⟩

/-- The item that the loop makes of the `i`-th word; the branch for `SUB` is never taken. -/
def aarch32Item (mem : Memory 32) (oldBlock : BitVec 32) (i : Nat) : Item :=
  let ins := mem.load32 (wordAddr oldBlock i)
  if isAarch32Adr ins then
    aarch32LoadItem (aarch32AdrDecodeRd ins)
      (pcValueAligned oldBlock i + aarch32AdrDecodeImm ins)
  else if isAarch32LdrLiteral ins then
    aarch32LoadItem (aarch32LdrLiteralDecodeRt ins)
      (mem.load32 (if aarch32LdrLiteralDecodeU ins ≠ 0 then
        pcValueAligned oldBlock i + aarch32LdrLiteralDecodeImm ins
      else
        pcValueAligned oldBlock i - aarch32LdrLiteralDecodeImm ins))
  else
    copyItem ins

/-- The jump back to the code behind the block. -/
def aarch32JumpBack (oldBlock : BitVec 32) (blockSize : Nat) : List Item :=
  [aarch32LoadItem 12 (wordAddr oldBlock blockSize), copyItem (makeAarch32Bx 12)]

/-- The items of a whole stub. -/
def aarch32Items (mem : Memory 32) (oldBlock : BitVec 32) (blockSize : Nat) : List Item :=
  (List.range blockSize).map (aarch32Item mem oldBlock) ++ aarch32JumpBack oldBlock blockSize

variable {mem : Memory 32} {oldBlock : BitVec 32} {n i : Nat}

theorem aarch32Item_size (mem : Memory 32) (oldBlock : BitVec 32) (i : Nat) :
    (aarch32Item mem oldBlock i).datum.length ≤ 4 ∧
      (aarch32Item mem oldBlock i).datum.length % 4 = 0 := by
  unfold aarch32Item
  simp only
  split
  · simp [aarch32LoadItem]
  split
  · simp [aarch32LoadItem]
  · simp [copyItem]

theorem aarch32InsOffset_eq {code data : LHStream} (h : code.tell ≤ 4 * (n + 2))
    (hn : n ≤ 62) :
    aarch32InsOffset n code data = BitVec.ofNat 32 (4 * (n + 2) - code.tell + data.tell) - 8 := by
  rw [aarch32InsOffset, Nat.mul_comm, BitVec.ofNat_add,
    BitVec.ofNat_sub_ofNat_of_le _ _ (by omega) h]

/-- A round of the loop pushes the item. -/
theorem rewriteAarch32Word_eq (streams : LHStream × LHStream)
    (h : streams.1.tell ≤ 4 * (n + 2)) (hn : n ≤ 62) :
    rewriteAarch32Word mem oldBlock n streams i =
      push (4 * (n + 2)) streams (aarch32Item mem oldBlock i) := by
  rcases streams with ⟨code, data⟩
  unfold rewriteAarch32Word aarch32Item
  simp only [aarch32InsOffset_eq h hn]
  by_cases hadr : isAarch32Adr (mem.load32 (wordAddr oldBlock i))
  · rw [if_pos hadr, if_pos hadr]
    rfl
  -- the test for `SUB` repeats the test for `ADD`, so its branch is dead
  · have hsub : ¬ isAarch32AdrSub (mem.load32 (wordAddr oldBlock i)) := hadr
    rw [if_neg hadr, if_neg hsub, if_neg hadr]
    split
    · rfl
    · rw [push, copyItem, LHStream.write_nil]

/-! ## The stub -/

/-- The streams after `k` rounds of the loop. -/
def aarch32Rounds (mem : Memory 32) (oldBlock : BitVec 32) (blockSize k : Nat) :
    LHStream × LHStream :=
  (List.range k).foldl (rewriteAarch32Word mem oldBlock blockSize) (LHStream.init, LHStream.init)

/-- The streams at the end. -/
def aarch32Final (mem : Memory 32) (oldBlock : BitVec 32) (blockSize : Nat) :
    LHStream × LHStream :=
  let (code, data) := aarch32Rounds mem oldBlock blockSize blockSize
  let offset := aarch32InsOffset blockSize code data
  let code := code.write32 (makeAarch32LdrLiteral 1 12 offset)
  (code.write32 (makeAarch32Bx 12), data.write32 (wordAddr oldBlock blockSize))

theorem rewriteAArch32Block_eq (self : LHHooker 32) (mem : Memory 32) (oldBlock : BitVec 32)
    (blockSize : Nat) : rewriteAArch32Block self mem oldBlock blockSize =
      copyToNewBlock self mem (aarch32Final mem oldBlock blockSize).1
        (aarch32Final mem oldBlock blockSize).2 := rfl

/-- The streams hold the items, after each round and at the end. -/
theorem aarch32_streams (mem : Memory 32) (oldBlock : BitVec 32) (hn : n ≤ 62) :
    (∀ i ≤ n, Emitted (4 * (n + 2)) ((List.range i).map (aarch32Item mem oldBlock))
        (aarch32Rounds mem oldBlock n i)) ∧
      Emitted (4 * (n + 2)) (aarch32Items mem oldBlock n) (aarch32Final mem oldBlock n) := by
  rcases Emitted.rewritten (by rw [streamMaxSize]; omega) (by rw [streamMaxSize]; omega)
    (fun i => (aarch32Item_size mem oldBlock i).1)
    (fun streams _ h => rewriteAarch32Word_eq streams h hn)
    (aarch32LoadItem 12 (wordAddr oldBlock n)) (Nat.le_of_eq (toLE_length _ _))
    (makeAarch32Bx 12) with ⟨hrounds, hcode, hemitted⟩
  refine ⟨hrounds, ?_⟩
  rw [aarch32Final]
  simp only [aarch32Rounds, aarch32InsOffset_eq hcode hn]
  exact hemitted

theorem aarch32_emitted (mem : Memory 32) (oldBlock : BitVec 32) (hn : n ≤ 62) :
    ∃ streams, Emitted (4 * (n + 2)) (aarch32Items mem oldBlock n) streams ∧
      ∀ self, rewriteAArch32Block self mem oldBlock n =
        copyToNewBlock self mem streams.1 streams.2 :=
  ⟨_, (aarch32_streams mem oldBlock hn).2,
    fun self => rewriteAArch32Block_eq self mem oldBlock n⟩

/-- The stub starts where the stub area has been used up to, at a word. -/
theorem rewriteAArch32Block_newBlock (self : LHHooker 32) (mem : Memory 32) (oldBlock : BitVec 32)
    (hn : n ≤ 62) :
    (rewriteAArch32Block self mem oldBlock n).newBlock =
        self.rwxBlock + BitVec.ofNat 32 self.rwxBlockUsed ∧
      (rewriteAArch32Block self mem oldBlock n).newBlock.toNat % 4 = 0 := by
  rcases aarch32_emitted mem oldBlock hn with ⟨streams, _, hrun⟩
  rw [hrun self]
  exact ⟨rfl, self.allocRwx_aligned (streams.1.tell + streams.2.tell) (by decide)⟩

/-- The distance is in the field of the word, less the 8 that the PC is ahead. -/
theorem decode_aarch32LoadItem (rt datum : BitVec 32) {d : Nat} (hd : 8 ≤ d) :
    A32.decode ((aarch32LoadItem rt datum).word d) =
      some (.ldrLiteral true (rt.setWidth 4) (BitVec.ofNat 12 (d - 8))) := by
  have himm : BitVec.ofNat 32 d - 8 = BitVec.ofNat 32 (d - 8) :=
    BitVec.ofNat_sub_ofNat_of_le _ _ (by decide) hd
  have hfield : (BitVec.ofNat 32 (d - 8)).setWidth 12 = BitVec.ofNat 12 (d - 8) := by
    apply BitVec.eq_of_toNat_eq
    simp only [BitVec.toNat_setWidth, BitVec.toNat_ofNat]
    omega
  rw [aarch32LoadItem, decode_makeAarch32LdrLiteral, himm, hfield]
  rfl

/-- A literal load reads the datum at the distance that it was made for. -/
theorem loads_aarch32LoadItem (m : Memory 32) {addr : BitVec 32} (rt datum : BitVec 32) {d : Nat}
    (haddr : addr.toNat % 4 = 0) (hd : 8 ≤ d ∧ d < 2 ^ 12) :
    A32.loads m addr ((aarch32LoadItem rt datum).word d) =
      some (rt.setWidth 4, m.load32 (addr + BitVec.ofNat 32 d)) := by
  rw [A32.loads, decode_aarch32LoadItem rt datum hd.1, Option.bind_some, A32.Instr.result,
    A32.literalAddr_ofNat haddr hd]

/-- What is fetched in the place of an instruction, at the distance of its datum. -/
theorem aarch32_fetch (self : LHHooker 32) (hn : n ≤ 62) (hi : i < n) :
    let r := rewriteAArch32Block self mem oldBlock n
    let item := aarch32Item mem oldBlock i
    ∃ d, (8 ≤ d ∧ d < 2 ^ 12) ∧ r.mem.load32 (wordAddr r.newBlock i) = item.word d ∧
      r.mem.read (wordAddr r.newBlock i + BitVec.ofNat 32 d) item.datum.length = item.datum := by
  intro r item
  rcases aarch32_emitted mem oldBlock hn with ⟨streams, hemitted, hrun⟩
  rcases hemitted.fetch (fun i => (aarch32Item_size mem oldBlock i).2) self mem (by decide) hi with
    ⟨d, ⟨hge, hle, _⟩, hfetch, hread⟩
  rw [← hrun self] at hfetch hread
  exact ⟨d, ⟨hge, lt_of_le_of_lt hle (by decide)⟩, hfetch, hread⟩

/-- The instruction in the place of a rewritten one loads its datum. -/
theorem loads_aarch32_stub (self : LHHooker 32) (hn : n ≤ 62) (hi : i < n) {rt datum : BitVec 32}
    (hitem : aarch32Item mem oldBlock i = aarch32LoadItem rt datum) :
    let r := rewriteAArch32Block self mem oldBlock n
    A32.loads r.mem (wordAddr r.newBlock i) (r.mem.load32 (wordAddr r.newBlock i)) =
      some (rt.setWidth 4, datum) := by
  intro r
  -- the load was made for the distance at which its datum is
  rcases aarch32_fetch self hn hi with ⟨d, hd, hfetch, hread⟩
  have halign := wordAddr_aligned (by decide) (rewriteAArch32Block_newBlock self mem oldBlock hn).2 i
  have hdatum : r.mem.load32 (wordAddr r.newBlock i + BitVec.ofNat 32 d) = datum := by
    apply Memory.load_of_read
    rwa [hitem] at hread
  rw [hfetch, hitem, loads_aarch32LoadItem _ _ _ halign hd, hdatum]

/-! ## Preservation -/

/-- Whatever the `i`-th instruction of the block loads, the one in its place loads too. -/
def AArch32Preserves (self : LHHooker 32) (mem : Memory 32) (oldBlock : BitVec 32) (n i : Nat) :
    Prop :=
  let r := rewriteAArch32Block self mem oldBlock n
  ∀ load, A32.loads mem (wordAddr oldBlock i) (mem.load32 (wordAddr oldBlock i)) = some load →
    A32.loads r.mem (wordAddr r.newBlock i) (r.mem.load32 (wordAddr r.newBlock i)) = some load

/-- What the `i`-th instruction may not be: an `ADR` with `ADD` and a rotated immediate, or one with
`SUB`, unless the stub is where the block is. -/
structure AArch32Movable (hooker : LHHooker 32) (mem : Memory 32) (oldBlock : BitVec 32) (i : Nat) :
    Prop where
  add : ∀ rd imm, A32.decode (mem.load32 (wordAddr oldBlock i)) = some (.adrAdd rd imm) →
    imm.extractLsb' 8 4 = 0#4
  sub : ∀ rd imm, A32.decode (mem.load32 (wordAddr oldBlock i)) = some (.adrSub rd imm) →
    hooker.rwxBlock + BitVec.ofNat 32 hooker.rwxBlockUsed = oldBlock

/-- When both load the same register, the values decide. -/
theorem aarch32Preserves_iff_of_loads (self : LHHooker 32) {rd : BitVec 4} {v v' : BitVec 32}
    (horiginal : A32.loads mem (wordAddr oldBlock i) (mem.load32 (wordAddr oldBlock i)) =
      some (rd, v))
    (hstub : let r := rewriteAArch32Block self mem oldBlock n
      A32.loads r.mem (wordAddr r.newBlock i) (r.mem.load32 (wordAddr r.newBlock i)) =
        some (rd, v')) :
    AArch32Preserves self mem oldBlock n i ↔ v' = v := by
  constructor
  · intro h
    have heq := hstub.symm.trans (h _ horiginal)
    simp only [Option.some.injEq, Prod.mk.injEq, true_and] at heq
    exact heq
  · rintro rfl load h
    rw [horiginal] at h
    rw [← h]
    exact hstub

section Forms

variable {w : BitVec 32} (hw : mem.load32 (wordAddr oldBlock i) = w)
variable (self : LHHooker 32) (hn : n ≤ 62) (hi : i < n)
include hw hn hi

/-- `ADR` with `ADD`: the immediate must stand for itself. -/
theorem aarch32Preserves_add_iff {rd : BitVec 4} {imm : BitVec 12}
    (hdecode : A32.decode w = some (.adrAdd rd imm)) :
    AArch32Preserves self mem oldBlock n i ↔ imm.extractLsb' 8 4 = 0#4 := by
  rcases A32.decode_eq_adrAdd hdecode with ⟨hupper, hrd, himm⟩
  -- the rewriter adds the field as it stands, without rotating it
  have hitem : aarch32Item mem oldBlock i = aarch32LoadItem (rd.setWidth 32)
      (A32.alignedPC (wordAddr oldBlock i) + imm.setWidth 32) := by
    simp only [aarch32Item, hw]
    rw [if_pos ((isAarch32Adr_iff w).mpr hupper), aarch32AdrDecodeRd_eq, aarch32AdrDecodeImm_eq,
      hrd, himm]
    rfl
  have horiginal : A32.loads mem (wordAddr oldBlock i) (mem.load32 (wordAddr oldBlock i)) =
      some ((rd.setWidth 32).setWidth 4,
        A32.alignedPC (wordAddr oldBlock i) + A32.expandImm imm) := by
    rw [hw, A32.loads, hdecode, setWidth_setWidth_self _ (by decide)]
    rfl
  rw [aarch32Preserves_iff_of_loads self horiginal (loads_aarch32_stub self hn hi hitem),
    BitVec.add_right_inj, eq_comm, A32.expandImm_eq_iff]

/-- Literal loads are moved faithfully. -/
theorem aarch32Preserves_ldrLiteral {u : Bool} {rt : BitVec 4} {imm : BitVec 12}
    (hdecode : A32.decode w = some (.ldrLiteral u rt imm)) :
    AArch32Preserves self mem oldBlock n i := by
  rcases A32.decode_eq_ldrLiteral hdecode with ⟨hfields, hu, hrt, himm⟩
  have hadr : ¬ isAarch32Adr w := by
    rw [isAarch32Adr_iff]
    exact (ldrLiteral_upper hfields.1).1
  -- the macro for U reads the bit that the decoder reads
  have hsign : aarch32LdrLiteralDecodeU w ≠ 0 ↔ u = true := by
    have hbit : ∀ x : BitVec 1, x.setWidth 32 ≠ 0 ↔ x = 0b1#1 := by decide
    rw [aarch32LdrLiteralDecodeU_eq, hbit, ← hu, decide_eq_true_iff]
  have hitem : aarch32Item mem oldBlock i = aarch32LoadItem (rt.setWidth 32)
      (mem.load32 (A32.literalAddr (wordAddr oldBlock i) u imm)) := by
    simp only [aarch32Item, hw]
    rw [if_neg hadr, if_pos ((isAarch32LdrLiteral_iff w).mpr hfields),
      aarch32LdrLiteralDecodeRt_eq, aarch32LdrLiteralDecodeImm_eq, hrt, himm]
    simp only [hsign]
    rfl
  have horiginal : A32.loads mem (wordAddr oldBlock i) (mem.load32 (wordAddr oldBlock i)) =
      some ((rt.setWidth 32).setWidth 4,
        mem.load32 (A32.literalAddr (wordAddr oldBlock i) u imm)) := by
    rw [hw, A32.loads, hdecode, setWidth_setWidth_self _ (by decide)]
    rfl
  exact (aarch32Preserves_iff_of_loads self horiginal
    (loads_aarch32_stub self hn hi hitem)).mpr rfl

/-- `ADR` with `SUB`: the word is copied, so the stub must be where the block is. -/
theorem aarch32Preserves_sub_iff (hblock : oldBlock.toNat % 4 = 0) {rd : BitVec 4}
    {imm : BitVec 12} (hdecode : A32.decode w = some (.adrSub rd imm)) :
    AArch32Preserves self mem oldBlock n i ↔
      self.rwxBlock + BitVec.ofNat 32 self.rwxBlockUsed = oldBlock := by
  rcases A32.decode_eq_adrSub hdecode with ⟨hupper, hrd, himm⟩
  rcases rewriteAArch32Block_newBlock self mem oldBlock hn with ⟨hstart, haligned⟩
  have hadr : ¬ isAarch32Adr w := by
    rw [isAarch32Adr_iff, hupper]
    decide
  have hldr : ¬ isAarch32LdrLiteral w := by
    intro h
    exact (ldrLiteral_upper ((isAarch32LdrLiteral_iff w).mp h).1).2 hupper
  -- none of the tests is met, so the word is copied
  have hitem : aarch32Item mem oldBlock i = copyItem w := by
    simp only [aarch32Item, hw]
    rw [if_neg hadr, if_neg hldr]
  have horiginal : A32.loads mem (wordAddr oldBlock i) (mem.load32 (wordAddr oldBlock i)) =
      some (rd, A32.alignedPC (wordAddr oldBlock i) - A32.expandImm imm) := by
    rw [hw, A32.loads, hdecode]
    rfl
  -- and then it computes from its new place
  have hstub : let r := rewriteAArch32Block self mem oldBlock n
      A32.loads r.mem (wordAddr r.newBlock i) (r.mem.load32 (wordAddr r.newBlock i)) =
        some (rd, A32.alignedPC (wordAddr r.newBlock i) - A32.expandImm imm) := by
    intro r
    rcases aarch32_fetch self hn hi with ⟨d, _, hfetch, _⟩
    rw [hfetch, hitem, copyItem, A32.loads, hdecode]
    rfl
  rw [aarch32Preserves_iff_of_loads self horiginal hstub, BitVec.sub_left_inj,
    A32.alignedPC_of_aligned (wordAddr_aligned (by decide) haligned i),
    A32.alignedPC_of_aligned (wordAddr_aligned (by decide) hblock i), BitVec.add_left_inj, wordAddr,
    wordAddr, BitVec.add_left_inj, hstart]

end Forms

/-- An instruction of the block is preserved exactly when it is movable. -/
theorem aarch32Preserves_iff (self : LHHooker 32) (mem : Memory 32) {oldBlock : BitVec 32}
    (hblock : oldBlock.toNat % 4 = 0) (hn : n ≤ 62) (hi : i < n) :
    AArch32Preserves self mem oldBlock n i ↔ AArch32Movable self mem oldBlock i := by
  generalize hw : mem.load32 (wordAddr oldBlock i) = w
  -- what is left of `AArch32Movable` when the instruction is known
  have hmovable : AArch32Movable self mem oldBlock i ↔
      (∀ rd imm, A32.decode w = some (.adrAdd rd imm) → imm.extractLsb' 8 4 = 0#4) ∧
        (∀ rd imm, A32.decode w = some (.adrSub rd imm) →
          self.rwxBlock + BitVec.ofNat 32 self.rwxBlockUsed = oldBlock) := by
    rw [← hw]
    exact ⟨fun h => ⟨h.add, h.sub⟩, fun h => ⟨h.1, h.2⟩⟩
  rw [hmovable]
  -- by the form of the instruction
  cases hdecode : A32.decode w with
  | none =>
      refine iff_of_true (fun load h => ?_) (by simp)
      rw [hw, A32.loads, hdecode] at h
      cases h
  | some instr =>
      cases instr with
      | adrAdd rd imm =>
          rw [aarch32Preserves_add_iff hw self hn hi hdecode]
          simp
      | adrSub rd imm =>
          rw [aarch32Preserves_sub_iff hw self hn hi hblock hdecode]
          simp
      | ldrLiteral u rt imm =>
          exact iff_of_true (aarch32Preserves_ldrLiteral hw self hn hi hdecode) (by simp)
      | bx rm =>
          refine iff_of_true (fun load h => ?_) (by simp)
          rw [hw, A32.loads, hdecode] at h
          cases h

/-- A block of three is moved faithfully exactly when its instructions are movable. -/
theorem rewriteAArch32Block_preserves_iff (self : LHHooker 32) (mem : Memory 32)
    {oldBlock : BitVec 32} (hblock : oldBlock.toNat % 4 = 0) :
    (∀ i < 3, AArch32Preserves self mem oldBlock 3 i) ↔
      ∀ i < 3, AArch32Movable self mem oldBlock i :=
  forall₂_congr fun _ hi => aarch32Preserves_iff self mem hblock (by decide) hi

/-- A stub area at `0x20000`. -/
def hookerAt20000 : LHHooker 32 := ⟨0x20000, 0xa000, 0, by decide, by decide⟩

/-- Zeros, but for the word at `0x1000`. -/
def wordAt1000 (bs : Bytes) : Memory 32 := Memory.write (fun _ => 0) 0x1000 bs

/-- `add r0, pc, #8`, and words that are none of these instructions. -/
theorem rewriteAArch32Block_preserves_add :
    let mem := wordAt1000 [0x08, 0x00, 0x8f, 0xe2]
    AArch32Preserves hookerAt20000 mem 0x1000 3 0 ∧ AArch32Preserves hookerAt20000 mem 0x1000 3 1 ∧
      AArch32Preserves hookerAt20000 mem 0x1000 3 2 := by
  intro mem
  have hinstr : ∀ i < 3, A32.decode (mem.load32 (wordAddr 0x1000 i)) =
      if i = 0 then some (.adrAdd 0 8) else none := by decide
  have hmovable : ∀ i < 3, AArch32Movable hookerAt20000 mem 0x1000 i := by
    intro i hi
    constructor
    · intro rd imm h
      rw [hinstr i hi] at h
      split at h
      · cases h
        decide
      · cases h
    · intro rd imm h
      rw [hinstr i hi] at h
      split at h <;> cases h
  have hall := (rewriteAArch32Block_preserves_iff hookerAt20000 mem (by decide)).mpr hmovable
  exact ⟨hall 0 (by decide), hall 1 (by decide), hall 2 (by decide)⟩

/-- `sub r0, pc, #8`. -/
theorem rewriteAArch32Block_not_preserves :
    ¬ ∀ i < 3, AArch32Preserves hookerAt20000 (wordAt1000 [0x08, 0x00, 0x4f, 0xe2]) 0x1000 3 i := by
  intro h
  have hmovable := (aarch32Preserves_iff _ _ (by decide) (by decide) (by decide : 0 < 3)).mp
    (h 0 (by decide))
  exact absurd (hmovable.sub 0 8 (by decide)) (by decide)

end LeafHook
end KnShim
