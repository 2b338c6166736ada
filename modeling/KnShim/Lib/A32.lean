import KnShim.Lib.Memory
import Mathlib.Logic.Function.Basic
import Mathlib.Logic.Relation

/-!
# A32 — the instructions that refer to their own address

The part of the A32 instruction set that matters when code is moved: `ADR` in its two forms, which
are `ADD` and `SUB` with the PC and a modified immediate, `LDR` (literal), and `BX`, by which moved
code jumps back; all of them unconditional.  The PC reads as the address of the instruction plus 8.
`step` executes these instructions.

`PositionDependent` covers the whole encoding space: it holds of every word whose effect depends on
the address at which it is executed.  Classes of instructions in which the use of the PC is
UNPREDICTABLE throughout (multiplies, shifts by a register, transfers to coprocessors) are left out.
-/

namespace KnShim
namespace Lib
namespace A32

inductive Instr where
  | adrAdd (rd : BitVec 4) (imm : BitVec 12)
  | adrSub (rd : BitVec 4) (imm : BitVec 12)
  | ldrLiteral (u : Bool) (rt : BitVec 4) (imm : BitVec 12)
  | bx (rm : BitVec 4)
  deriving DecidableEq, Repr

/-- The word as one of the instructions above. -/
def decode (w : BitVec 32) : Option Instr :=
  -- cond 00 1 0100 0 1111 Rd(4) imm(12)
  if w.extractLsb' 16 16 = 0b1110001010001111#16 then
    some (.adrAdd (w.extractLsb' 12 4) (w.extractLsb' 0 12))
  -- cond 00 1 0010 0 1111 Rd(4) imm(12)
  else if w.extractLsb' 16 16 = 0b1110001001001111#16 then
    some (.adrSub (w.extractLsb' 12 4) (w.extractLsb' 0 12))
  -- cond 0101 U 001 1111 Rt(4) imm(12)
  else if w.extractLsb' 24 8 = 0b11100101#8 ∧ w.extractLsb' 16 7 = 0b0011111#7 then
    some (.ldrLiteral (w.extractLsb' 23 1 = 0b1#1) (w.extractLsb' 12 4) (w.extractLsb' 0 12))
  else if w.extractLsb' 4 28 = 0b1110000100101111111111110001#28 then
    some (.bx (w.extractLsb' 0 4))
  else
    none

/-- A modified immediate: eight bits, rotated right by twice the upper four. -/
def expandImm (imm : BitVec 12) : BitVec 32 :=
  ((imm.extractLsb' 0 8).setWidth 32).rotateRight (2 * (imm.extractLsb' 8 4).toNat)

/-- `Align(PC, 4)` at an instruction. -/
def alignedPC (addr : BitVec 32) : BitVec 32 := (addr + 8) &&& ~~~3#32

/-- The address that `LDR` (literal) reads. -/
def literalAddr (addr : BitVec 32) (u : Bool) (imm : BitVec 12) : BitVec 32 :=
  if u then alignedPC addr + imm.setWidth 32 else alignedPC addr - imm.setWidth 32

/-- The register that the instruction at `addr` loads, and the value. -/
def Instr.result (m : Memory 32) (addr : BitVec 32) : Instr → Option (BitVec 4 × BitVec 32)
  | .adrAdd rd imm => some (rd, alignedPC addr + expandImm imm)
  | .adrSub rd imm => some (rd, alignedPC addr - expandImm imm)
  | .ldrLiteral u rt imm => some (rt, m.load32 (literalAddr addr u imm))
  | .bx _ => none

/-- What the word loads when it is executed at `addr`. -/
def loads (m : Memory 32) (addr : BitVec 32) (w : BitVec 32) : Option (BitVec 4 × BitVec 32) :=
  (decode w).bind (Instr.result m addr)

/-! ## What was decoded -/

section Decoded

variable {w : BitVec 32} {r : BitVec 4} {imm : BitVec 12}

theorem decode_eq_adrAdd (h : decode w = some (.adrAdd r imm)) :
    w.extractLsb' 16 16 = 0b1110001010001111#16 ∧ w.extractLsb' 12 4 = r ∧
      w.extractLsb' 0 12 = imm := by
  unfold decode at h
  split at h
  · rename_i hadd
    cases h
    exact ⟨hadd, rfl, rfl⟩
  · repeat' split at h
    all_goals cases h

theorem decode_eq_adrSub (h : decode w = some (.adrSub r imm)) :
    w.extractLsb' 16 16 = 0b1110001001001111#16 ∧ w.extractLsb' 12 4 = r ∧
      w.extractLsb' 0 12 = imm := by
  unfold decode at h
  split at h
  · cases h
  split at h
  · rename_i hsub
    cases h
    exact ⟨hsub, rfl, rfl⟩
  · repeat' split at h
    all_goals cases h

theorem decode_eq_ldrLiteral {u : Bool} (h : decode w = some (.ldrLiteral u r imm)) :
    (w.extractLsb' 24 8 = 0b11100101#8 ∧ w.extractLsb' 16 7 = 0b0011111#7) ∧
      decide (w.extractLsb' 23 1 = 0b1#1) = u ∧ w.extractLsb' 12 4 = r ∧
        w.extractLsb' 0 12 = imm := by
  unfold decode at h
  split at h
  · cases h
  split at h
  · cases h
  split at h
  · rename_i hldr
    cases h
    exact ⟨hldr, rfl, rfl, rfl⟩
  · split at h <;> cases h

end Decoded

/-! ## Addresses and immediates -/

/-- Only an immediate that is not rotated stands for itself. -/
theorem expandImm_eq_iff (imm : BitVec 12) :
    expandImm imm = imm.setWidth 32 ↔ imm.extractLsb' 8 4 = 0#4 := by
  -- all rotations of all bytes
  have hall : ∀ rot < 2 ^ 4, ∀ byte < 2 ^ 8,
      (expandImm (BitVec.ofNat 12 (2 ^ 8 * rot + byte)) =
          (BitVec.ofNat 12 (2 ^ 8 * rot + byte)).setWidth 32 ↔
        (BitVec.ofNat 12 (2 ^ 8 * rot + byte)).extractLsb' 8 4 = 0#4) := by
    decide +kernel
  have hlt := imm.isLt
  have himm := hall (imm.toNat / 2 ^ 8) (by omega) (imm.toNat % 2 ^ 8) (by omega)
  rwa [Nat.div_add_mod, BitVec.ofNat_toNat, BitVec.setWidth_eq] at himm

/-- The PC is a word boundary already at a word. -/
theorem alignedPC_of_aligned {addr : BitVec 32} (h : addr.toNat % 4 = 0) :
    alignedPC addr = addr + 8 := by
  have hadd : (addr + 8).toNat % 4 = 0 := by
    rw [BitVec.toNat_add, show (8 : BitVec 32).toNat = 8 from rfl]
    omega
  apply BitVec.eq_of_getLsbD_eq
  intro i hi
  rw [alignedPC, BitVec.getLsbD_and]
  by_cases hlow : i < 2
  · -- the bits that the mask clears are clear
    have hbit : (addr + 8).getLsbD i = false := by
      rw [BitVec.getLsbD, Nat.testBit_eq_decide_div_mod_eq, decide_eq_false_iff_not]
      have hcases : i = 0 ∨ i = 1 := by omega
      rcases hcases with rfl | rfl <;> omega
    rw [hbit, Bool.false_and]
  · have hmask : (~~~3#32).getLsbD i = true := by
      have hall : ∀ j < 32, ¬ j < 2 → (~~~3#32).getLsbD j = true := by decide
      exact hall i hi hlow
    rw [hmask, Bool.and_true]

/-- A literal at a distance that the field holds. -/
theorem literalAddr_ofNat {addr : BitVec 32} (haddr : addr.toNat % 4 = 0) {d : Nat}
    (hd : 8 ≤ d ∧ d < 2 ^ 12) :
    literalAddr addr true (BitVec.ofNat 12 (d - 8)) = addr + BitVec.ofNat 32 d := by
  have hwiden : (BitVec.ofNat 12 (d - 8)).setWidth 32 = BitVec.ofNat 32 (d - 8) :=
    BitVec.setWidth_ofNat_of_le_of_lt (by decide) (by omega)
  rw [literalAddr, if_pos rfl, alignedPC_of_aligned haddr, hwiden, BitVec.add_assoc,
    show (8 : BitVec 32) = BitVec.ofNat 32 8 from rfl, ← BitVec.ofNat_add, Nat.add_sub_of_le hd.1]

/-! ## Everything that depends on its own address -/

/-- The instructions that read the PC. -/
inductive PcForm where
  | adrAdd
  | ldrLiteral
  | branch
  | bxPC
  | blx
  | dataProcessingImm
  | dataProcessingReg
  | loadStoreImm
  | loadStoreReg
  | loadStoreExtra
  | storePC
  | pushPC
  | coprocessor
  | preload
  deriving DecidableEq, Repr

/-- `MOV` and `MVN` have no first operand, and with S clear the comparisons are other
instructions. -/
def FirstOperandPC (w : BitVec 32) : Prop :=
  w.extractLsb' 16 4 = 0b1111#4 ∧ w.extractLsb' 21 4 ≠ 0b1101#4 ∧ w.extractLsb' 21 4 ≠ 0b1111#4

/-- Not the space between `TST` and `CMN` without S, which holds other instructions. -/
def IsDataProcessing (w : BitVec 32) : Prop :=
  ¬ (w.extractLsb' 23 2 = 0b10#2 ∧ w.extractLsb' 20 1 = 0b0#1)

/-- The base is the PC and is not written back (P set, W clear). -/
def BasePC (w : BitVec 32) : Prop :=
  w.extractLsb' 16 4 = 0b1111#4 ∧ w.extractLsb' 24 1 = 0b1#1 ∧ w.extractLsb' 21 1 = 0b0#1

/-- The condition field; the value 1111 is a space of its own. -/
def Conditional (w : BitVec 32) : Prop := w.extractLsb' 28 4 ≠ 0b1111#4

/-- The encodings of each form. -/
def PcForm.Matches (w : BitVec 32) : PcForm → Prop
  | .adrAdd => w.extractLsb' 16 16 = 0b1110001010001111#16
  | .ldrLiteral => w.extractLsb' 24 8 = 0b11100101#8 ∧ w.extractLsb' 16 7 = 0b0011111#7
  -- cond 101 L imm(24): B, BL, and BLX (immediate)
  | .branch => w.extractLsb' 25 3 = 0b101#3
  -- cond 000100101111111111110001 Rm(4)
  | .bxPC => Conditional w ∧ w.extractLsb' 0 28 = 0b0001001011111111111100011111#28
  -- cond 000100101111111111110011 Rm(4), which leaves the address of the next instruction in LR
  | .blx => Conditional w ∧ w.extractLsb' 4 24 = 0b000100101111111111110011#24 ∧
      w.extractLsb' 0 4 ≠ 0b1111#4
  -- cond 001 opcode(4) S Rn(4) Rd(4) imm(12)
  | .dataProcessingImm => Conditional w ∧ w.extractLsb' 25 3 = 0b001#3 ∧ IsDataProcessing w ∧
      FirstOperandPC w ∧ w.extractLsb' 16 16 ≠ 0b1110001010001111#16
  -- cond 000 opcode(4) S Rn(4) Rd(4) imm(5) type(2) 0 Rm(4)
  | .dataProcessingReg => Conditional w ∧ w.extractLsb' 25 3 = 0b000#3 ∧
      w.extractLsb' 4 1 = 0b0#1 ∧ IsDataProcessing w ∧
      (FirstOperandPC w ∨ w.extractLsb' 0 4 = 0b1111#4)
  -- cond 010 P U B W L Rn(4) Rt(4) imm(12)
  | .loadStoreImm => Conditional w ∧ w.extractLsb' 25 3 = 0b010#3 ∧ BasePC w ∧
      ¬ (w.extractLsb' 24 8 = 0b11100101#8 ∧ w.extractLsb' 16 7 = 0b0011111#7)
  -- cond 011 P U B W L Rn(4) Rt(4) imm(5) type(2) 0 Rm(4)
  | .loadStoreReg => Conditional w ∧ w.extractLsb' 25 3 = 0b011#3 ∧ w.extractLsb' 4 1 = 0b0#1 ∧
      BasePC w
  -- cond 000 P U I W L Rn(4) Rt(4) imm(4) 1 op(2) 1 Rm(4): halfwords, signed bytes, doublewords
  | .loadStoreExtra => Conditional w ∧ w.extractLsb' 25 3 = 0b000#3 ∧ w.extractLsb' 7 1 = 0b1#1 ∧
      w.extractLsb' 4 1 = 0b1#1 ∧ w.extractLsb' 5 2 ≠ 0b00#2 ∧ BasePC w
  -- STR of the PC
  | .storePC => Conditional w ∧ w.extractLsb' 26 2 = 0b01#2 ∧
      (w.extractLsb' 25 1 = 0b0#1 ∨ w.extractLsb' 4 1 = 0b0#1) ∧ w.extractLsb' 22 1 = 0b0#1 ∧
      w.extractLsb' 20 1 = 0b0#1 ∧ w.extractLsb' 12 4 = 0b1111#4
  -- STM of the PC: cond 100 P U 0 W 0 Rn(4) list(16)
  | .pushPC => Conditional w ∧ w.extractLsb' 25 3 = 0b100#3 ∧ w.extractLsb' 22 1 = 0b0#1 ∧
      w.extractLsb' 20 1 = 0b0#1 ∧ w.extractLsb' 15 1 = 0b1#1
  -- cond 110 P U D W L Rn(4): VLDR, VSTR, LDC and their kind, where P or U is set
  | .coprocessor => w.extractLsb' 25 3 = 0b110#3 ∧ w.extractLsb' 16 4 = 0b1111#4 ∧
      w.extractLsb' 21 1 = 0b0#1 ∧ w.extractLsb' 23 2 ≠ 0b00#2
  -- 1111 01 R D U 101 Rn(4): PLD and PLI
  | .preload => w.extractLsb' 26 6 = 0b111101#6 ∧ w.extractLsb' 20 3 = 0b101#3 ∧
      w.extractLsb' 16 4 = 0b1111#4 ∧ (w.extractLsb' 25 1 = 0b0#1 ∨ w.extractLsb' 4 1 = 0b0#1)

/-- The effect of the instruction depends on the address at which it is executed. -/
def PositionDependent (w : BitVec 32) : Prop := ∃ form : PcForm, form.Matches w

/-! ## Execution -/

structure State where
  pc : BitVec 32
  thumb : Bool
  regs : BitVec 4 → BitVec 32

namespace State

/-- Register 15 reads 8 ahead. -/
def reg (s : State) (r : BitVec 4) : BitVec 32 := if r = 15 then s.pc + 8 else s.regs r

/-- Branch with exchange: the lowest bit of the target selects the instruction set. -/
def bx (s : State) (target : BitVec 32) : State :=
  { s with pc := target &&& ~~~1#32, thumb := target.getLsbD 0 }

/-- A register is loaded and control goes to the next instruction; to load the PC is to branch. -/
def load (s : State) (r : BitVec 4) (v : BitVec 32) : State :=
  if r = 15 then s.bx v else { s with pc := s.pc + 4, regs := Function.update s.regs r v }

end State

/-- Execute the instruction at the PC. -/
def step (m : Memory 32) (s : State) : Option State :=
  if s.thumb then
    none
  else
    match decode (m.load32 s.pc) with
    | none => none
    | some (.bx rm) => some (s.bx (s.reg rm))
    | some instr => (instr.result m s.pc).map fun load => s.load load.1 load.2

/-- Control goes from one state to another. -/
def Reaches (m : Memory 32) : State → State → Prop :=
  Relation.ReflTransGen fun s t => step m s = some t

theorem step_of_loads {m : Memory 32} {s : State} {r : BitVec 4} {v : BitVec 32}
    (harm : s.thumb = false) (h : loads m s.pc (m.load32 s.pc) = some (r, v)) :
    step m s = some (s.load r v) := by
  rw [loads, Option.bind_eq_some_iff] at h
  rcases h with ⟨instr, hdecode, hresult⟩
  -- a branch loads nothing
  cases instr with
  | bx rm => cases hresult
  | adrAdd | adrSub | ldrLiteral =>
      simp only [step, harm, Bool.false_eq_true, if_false, hdecode, hresult, Option.map_some]

/-- A register is loaded, and control branches to what it was loaded with. -/
theorem reaches_jump {m : Memory 32} {pc target : BitVec 32} {r : BitVec 4}
    (hload : loads m pc (m.load32 pc) = some (r, target))
    (hbranch : decode (m.load32 (pc + 4)) = some (.bx r)) (hr : r ≠ 15)
    (regs : BitVec 4 → BitVec 32) :
    Reaches m ⟨pc, false, regs⟩
      ⟨target &&& ~~~1#32, target.getLsbD 0, Function.update regs r target⟩ := by
  have hfirst : step m ⟨pc, false, regs⟩ =
      some ⟨pc + 4, false, Function.update regs r target⟩ := by
    have hstep := step_of_loads (s := ⟨pc, false, regs⟩) rfl hload
    rwa [State.load, if_neg hr] at hstep
  have hsecond : step m ⟨pc + 4, false, Function.update regs r target⟩ =
      some ⟨target &&& ~~~1#32, target.getLsbD 0, Function.update regs r target⟩ := by
    simp only [step, hbranch, State.reg, State.bx, if_neg hr, Function.update_self,
      Bool.false_eq_true, if_false]
  exact .tail (.single hfirst) hsecond

end A32
end Lib
end KnShim
