import KnShim.Lib.Memory
import Mathlib.Logic.Function.Basic
import Mathlib.Logic.Relation

/-!
# A64 — the instructions that refer to their own address

The part of the A64 instruction set that matters when code is moved: the three PC-relative
instructions `ADR`, `ADRP` and `LDR` (literal) in its 32- and 64-bit forms, and `BR`, by which moved
code jumps back.  `decode` follows the encoding tables field by field, `loads` is the register that
an instruction loads, with the value, and `step` executes these instructions.

`PositionDependent` covers the whole encoding space: it holds of every word whose effect depends on
the address at which it is executed.
-/

namespace KnShim
namespace Lib
namespace A64

inductive Instr where
  | adr (rd : BitVec 5) (imm : BitVec 21)
  | adrp (rd : BitVec 5) (imm : BitVec 21)
  | ldrLiteral (x : Bool) (rt : BitVec 5) (imm : BitVec 19)
  | br (rn : BitVec 5)
  deriving DecidableEq, Repr

/-- The word as one of the instructions above. -/
def decode (w : BitVec 32) : Option Instr :=
  -- op immlo(2) 10000 immhi(19) Rd(5)
  if w.extractLsb' 31 1 = 0b0#1 ∧ w.extractLsb' 24 5 = 0b10000#5 then
    some (.adr (w.extractLsb' 0 5) (w.extractLsb' 5 19 ++ w.extractLsb' 29 2))
  else if w.extractLsb' 31 1 = 0b1#1 ∧ w.extractLsb' 24 5 = 0b10000#5 then
    some (.adrp (w.extractLsb' 0 5) (w.extractLsb' 5 19 ++ w.extractLsb' 29 2))
  -- 0 x 011000 imm(19) Rt(5)
  else if w.extractLsb' 31 1 = 0b0#1 ∧ w.extractLsb' 24 6 = 0b011000#6 then
    some (.ldrLiteral (w.extractLsb' 30 1 = 0b1#1) (w.extractLsb' 0 5) (w.extractLsb' 5 19))
  else if w.extractLsb' 10 22 = 0b1101011000011111000000#22 ∧ w.extractLsb' 0 5 = 0b00000#5 then
    some (.br (w.extractLsb' 5 5))
  else
    none

/-- The bytes that `LDR` (literal) reads. -/
def literalSize (x : Bool) : Nat := if x then 8 else 4

/-- The address that `LDR` (literal) reads. -/
def literalAddr (pc : BitVec 64) (imm : BitVec 19) : BitVec 64 := pc + (imm.signExtend 64 <<< 2)

/-- The number that the bytes of a literal make in a register. -/
def extend (bs : Bytes) : BitVec 64 := BitVec.ofNat 64 (ofLE bs)

/-- The register that the instruction at `pc` loads, and the value. -/
def Instr.result (m : Memory 64) (pc : BitVec 64) : Instr → Option (BitVec 5 × BitVec 64)
  | .adr rd imm => some (rd, pc + imm.signExtend 64)
  | .adrp rd imm => some (rd, (pc &&& ~~~0xfff#64) + (imm.signExtend 64 <<< 12))
  | .ldrLiteral x rt imm => some (rt, extend (m.read (literalAddr pc imm) (literalSize x)))
  | .br _ => none

/-- What the word loads when it is executed at `pc`. -/
def loads (m : Memory 64) (pc : BitVec 64) (w : BitVec 32) : Option (BitVec 5 × BitVec 64) :=
  (decode w).bind (Instr.result m pc)

/-- A literal at a distance that the field holds. -/
theorem literalAddr_ofNat (pc : BitVec 64) {d : Nat} (hd : d < 2 ^ 20) (hwords : d % 4 = 0) :
    literalAddr pc (BitVec.ofNat 19 (d / 4)) = pc + BitVec.ofNat 64 d := by
  -- the field is signed, and the distance is positive in it
  have hmsb : (BitVec.ofNat 19 (d / 4)).msb = false := by
    rw [BitVec.msb_eq_decide, BitVec.toNat_ofNat, decide_eq_false_iff_not]
    omega
  have hext : (BitVec.ofNat 19 (d / 4)).signExtend 64 = BitVec.ofNat 64 (d / 4) := by
    rw [BitVec.signExtend_eq_setWidth_of_msb_false hmsb]
    exact BitVec.setWidth_ofNat_of_le_of_lt (by decide) (by omega)
  -- a multiple of four survives the shift
  have hshift : BitVec.ofNat 64 (d / 4) <<< 2 = BitVec.ofNat 64 d := by
    apply BitVec.eq_of_toNat_eq
    rw [BitVec.toNat_shiftLeft, BitVec.toNat_ofNat, BitVec.toNat_ofNat, Nat.shiftLeft_eq]
    omega
  rw [literalAddr, hext, hshift]

/-- Literals of one size make the same number exactly when their bytes agree. -/
theorem extend_inj {bs bs' : Bytes} (hlen : bs.length = bs'.length) (hsize : bs.length ≤ 8) :
    extend bs = extend bs' ↔ bs = bs' := by
  have hlt : ∀ xs : Bytes, xs.length ≤ 8 → ofLE xs < 2 ^ 64 := by
    intro xs hxs
    calc
      ofLE xs < 256 ^ xs.length := ofLE_lt xs
      _ ≤ 256 ^ 8 := Nat.pow_le_pow_right (by decide) hxs
  constructor
  · intro h
    have hnat := congrArg BitVec.toNat h
    rw [extend, extend, BitVec.toNat_ofNat, BitVec.toNat_ofNat, Nat.mod_eq_of_lt (hlt bs hsize),
      Nat.mod_eq_of_lt (hlt bs' (hlen ▸ hsize))] at hnat
    exact (ofLE_inj hlen).mp hnat
  · intro h
    rw [h]

/-! ## Everything that depends on its own address -/

/-- The instructions that read the PC, those of later extensions included.  `PACIASP` and `PACIBSP`,
which read it only behind a `PACM`, are not counted. -/
inductive PcForm where
  | adr
  | adrp
  | ldrLiteral
  | ldrswLiteral
  | prfmLiteral
  | simdLiteral
  | b
  | bl
  | bCond
  | compareBranch
  | testBranch
  | blr
  | blrAuth
  | blrAuthZero
  | compareBranchReg
  | compareBranchImm
  | pacPC
  | authPC
  | retAuthPC
  deriving DecidableEq, Repr

/-- The encodings of each form. -/
def PcForm.Matches (w : BitVec 32) : PcForm → Prop
  -- op immlo(2) 10000 immhi(19) Rd(5)
  | .adr => w.extractLsb' 31 1 = 0b0#1 ∧ w.extractLsb' 24 5 = 0b10000#5
  | .adrp => w.extractLsb' 31 1 = 0b1#1 ∧ w.extractLsb' 24 5 = 0b10000#5
  -- opc(2) 011 V 00 imm(19) Rt(5)
  | .ldrLiteral => w.extractLsb' 31 1 = 0b0#1 ∧ w.extractLsb' 24 6 = 0b011000#6
  | .ldrswLiteral => w.extractLsb' 24 8 = 0b10011000#8
  | .prfmLiteral => w.extractLsb' 24 8 = 0b11011000#8
  | .simdLiteral => w.extractLsb' 24 6 = 0b011100#6 ∧ w.extractLsb' 30 2 ≠ 0b11#2
  -- op 00101 imm(26)
  | .b => w.extractLsb' 26 6 = 0b000101#6
  | .bl => w.extractLsb' 26 6 = 0b100101#6
  -- 01010100 imm(19) o0 cond(4)
  | .bCond => w.extractLsb' 24 8 = 0b01010100#8
  -- sf 011010 op imm(19) Rt(5)
  | .compareBranch => w.extractLsb' 25 6 = 0b011010#6
  -- b5 011011 op b40(5) imm(14) Rt(5)
  | .testBranch => w.extractLsb' 25 6 = 0b011011#6
  -- 1101011000111111000000 Rn(5) 00000, which leaves the address of the next instruction in X30
  | .blr => w.extractLsb' 10 22 = 0b1101011000111111000000#22 ∧ w.extractLsb' 0 5 = 0b00000#5
  -- BLRAA and BLRAB, 110101110011111100001 M Rn(5) Rm(5), which leave it there too
  | .blrAuth => w.extractLsb' 11 21 = 0b110101110011111100001#21
  -- BLRAAZ and BLRABZ, 110101100011111100001 M Rn(5) 11111
  | .blrAuthZero =>
      w.extractLsb' 11 21 = 0b110101100011111100001#21 ∧ w.extractLsb' 0 5 = 0b11111#5
  -- CB, CBB and CBH: sf 1110100 cc(3) Rm(5) size(2) imm(9) Rt(5), cc not 10x, size 00, or 1x without
  -- sf
  | .compareBranchReg => w.extractLsb' 24 7 = 0b1110100#7 ∧ w.extractLsb' 22 2 ≠ 0b10#2 ∧
      (w.extractLsb' 14 2 = 0b00#2 ∨ w.extractLsb' 15 1 = 0b1#1 ∧ w.extractLsb' 31 1 = 0b0#1)
  -- sf 1110101 cc(3) imm(6) 0 imm(9) Rt(5), cc not 10x
  | .compareBranchImm => w.extractLsb' 24 7 = 0b1110101#7 ∧ w.extractLsb' 22 2 ≠ 0b10#2 ∧
      w.extractLsb' 14 1 = 0b0#1
  -- PACIASPPC and its kind: 110110101100000110 S 00 B 1111111110, B the key
  | .pacPC => w.extractLsb' 14 18 = 0b110110101100000110#18 ∧ w.extractLsb' 11 2 = 0b00#2 ∧
      w.extractLsb' 0 10 = 0b1111111110#10
  -- AUTIASPPC and AUTIBSPPC: 1111001110 B imm(16) 11111
  | .authPC => w.extractLsb' 22 10 = 0b1111001110#10 ∧ w.extractLsb' 0 5 = 0b11111#5
  -- RETAASPPC and RETABSPPC: 0101010100 B imm(16) 11111
  | .retAuthPC => w.extractLsb' 22 10 = 0b0101010100#10 ∧ w.extractLsb' 0 5 = 0b11111#5

/-- The effect of the instruction depends on the address at which it is executed. -/
def PositionDependent (w : BitVec 32) : Prop := ∃ form : PcForm, form.Matches w

/-! ## Execution -/

structure State where
  pc : BitVec 64
  regs : BitVec 5 → BitVec 64

namespace State

/-- Register 31 reads as zero. -/
def reg (s : State) (r : BitVec 5) : BitVec 64 := if r = 31 then 0 else s.regs r

/-- A register is loaded, unless it is register 31, and control goes to the next instruction. -/
def load (s : State) (r : BitVec 5) (v : BitVec 64) : State where
  pc := s.pc + 4
  regs := if r = 31 then s.regs else Function.update s.regs r v

end State

/-- Execute the instruction at the PC. -/
def step (m : Memory 64) (s : State) : Option State :=
  match decode (m.load32 s.pc) with
  | none => none
  | some (.br rn) => some { s with pc := s.reg rn }
  | some instr => (instr.result m s.pc).map fun load => s.load load.1 load.2

/-- Control goes from one state to another. -/
def Reaches (m : Memory 64) : State → State → Prop :=
  Relation.ReflTransGen fun s t => step m s = some t

theorem step_of_loads {m : Memory 64} {s : State} {r : BitVec 5} {v : BitVec 64}
    (h : loads m s.pc (m.load32 s.pc) = some (r, v)) : step m s = some (s.load r v) := by
  rw [loads, Option.bind_eq_some_iff] at h
  rcases h with ⟨instr, hdecode, hresult⟩
  -- a branch loads nothing
  cases instr with
  | br rn => cases hresult
  | adr | adrp | ldrLiteral =>
      simp only [step, hdecode, hresult, Option.map_some]

/-- A register is loaded, and control branches to what it was loaded with. -/
theorem reaches_jump {m : Memory 64} {pc target : BitVec 64} {r : BitVec 5}
    (hload : loads m pc (m.load32 pc) = some (r, target))
    (hbranch : decode (m.load32 (pc + 4)) = some (.br r)) (hr : r ≠ 31)
    (regs : BitVec 5 → BitVec 64) :
    Reaches m ⟨pc, regs⟩ ⟨target, Function.update regs r target⟩ := by
  have hfirst : step m ⟨pc, regs⟩ = some ⟨pc + 4, Function.update regs r target⟩ := by
    have hstep := step_of_loads (s := ⟨pc, regs⟩) hload
    rwa [State.load, if_neg hr] at hstep
  have hsecond : step m ⟨pc + 4, Function.update regs r target⟩ =
      some ⟨target, Function.update regs r target⟩ := by
    simp only [step, hbranch, State.reg, if_neg hr, Function.update_self]
  exact .tail (.single hfirst) hsecond

end A64
end Lib
end KnShim
