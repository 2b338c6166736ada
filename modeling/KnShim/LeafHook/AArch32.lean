import KnShim.LeafHook.Stream

/-!
# LeafHook.AArch32 — moving a block of A32 code

`LHRewriteAArch32Block` with the macros it uses.  Words, addresses and `size_t` are `BitVec 32`.
-/

namespace KnShim
namespace LeafHook

open Lib

/-! ## Macros -/

/-- `AARCH32_ADR_DECODE_RD`. -/
def aarch32AdrDecodeRd (input : BitVec 32) : BitVec 32 := ((input >>> 12) &&& 0xf#32) <<< 0

/-- `AARCH32_ADR_DECODE_IMM`. -/
def aarch32AdrDecodeImm (input : BitVec 32) : BitVec 32 := ((input >>> 0) &&& 0xfff#32) <<< 0

/-- `IS_AARCH32_ADR`. -/
def isAarch32Adr (input : BitVec 32) : Prop := input &&& 0xffff0000#32 = 0xe28f0000#32

/-- `IS_AARCH32_ADR_SUB`, which is the same test as `IS_AARCH32_ADR`. -/
def isAarch32AdrSub (input : BitVec 32) : Prop := input &&& 0xffff0000#32 = 0xe28f0000#32

/-- `MAKE_AARCH32_LDR_LITERAL`. -/
def makeAarch32LdrLiteral (u rt imm : BitVec 32) : BitVec 32 :=
  ((imm &&& 0xfff#32) <<< 0) ||| ((rt &&& 0xf#32) <<< 12) ||| (0b0011111#32 <<< 16) |||
    ((u &&& 0x1#32) <<< 23) ||| (0b11100101#32 <<< 24)

/-- `AARCH32_LDR_LITERAL_DECODE_U`. -/
def aarch32LdrLiteralDecodeU (input : BitVec 32) : BitVec 32 :=
  ((input >>> 23) &&& 0x1#32) <<< 0

/-- `AARCH32_LDR_LITERAL_DECODE_RT`. -/
def aarch32LdrLiteralDecodeRt (input : BitVec 32) : BitVec 32 :=
  ((input >>> 12) &&& 0xf#32) <<< 0

/-- `AARCH32_LDR_LITERAL_DECODE_IMM`. -/
def aarch32LdrLiteralDecodeImm (input : BitVec 32) : BitVec 32 :=
  ((input >>> 0) &&& 0xfff#32) <<< 0

/-- `IS_AARCH32_LDR_LITERAL`. -/
def isAarch32LdrLiteral (input : BitVec 32) : Prop := input &&& 0xff7f0000#32 = 0xe51f0000#32

/-- `MAKE_AARCH32_BX`. -/
def makeAarch32Bx (rm : BitVec 32) : BitVec 32 :=
  ((rm &&& 0xf#32) <<< 0) ||| (0b1110000100101111111111110001#32 <<< 4)

instance (input : BitVec 32) : Decidable (isAarch32Adr input) :=
  inferInstanceAs (Decidable (_ = _))

instance (input : BitVec 32) : Decidable (isAarch32AdrSub input) :=
  inferInstanceAs (Decidable (_ = _))

instance (input : BitVec 32) : Decidable (isAarch32LdrLiteral input) :=
  inferInstanceAs (Decidable (_ = _))

/-! ## `LHRewriteAArch32Block` -/

/-- `LH_INS_OFFSET`: from the PC of the next instruction, which reads 8 ahead, to the next datum. -/
def aarch32InsOffset (blockSize : Nat) (code data : LHStream) : BitVec 32 :=
  BitVec.ofNat 32 ((blockSize + 2) * 4) - BitVec.ofNat 32 code.tell + BitVec.ofNat 32 data.tell - 8

/-- `LH_PC_VALUE_ALIGNED`. -/
def pcValueAligned (oldBlock : BitVec 32) (i : Nat) : BitVec 32 :=
  (wordAddr oldBlock i + 8) &&& 0xfffffffc#32

/-- One round of the loop of `LHRewriteAArch32Block`. -/
def rewriteAarch32Word (mem : Memory 32) (oldBlock : BitVec 32) (blockSize : Nat)
    (streams : LHStream × LHStream) (i : Nat) : LHStream × LHStream :=
  let (code, data) := streams
  let ins := mem.load32 (wordAddr oldBlock i)
  if isAarch32Adr ins then
    let rd := aarch32AdrDecodeRd ins
    let imm := aarch32AdrDecodeImm ins
    let result := pcValueAligned oldBlock i + imm
    (code.write32 (makeAarch32LdrLiteral 1 rd (aarch32InsOffset blockSize code data)),
      data.write32 result)
  else if isAarch32AdrSub ins then
    let rd := aarch32AdrDecodeRd ins
    let imm := aarch32AdrDecodeImm ins
    let result := pcValueAligned oldBlock i - imm
    (code.write32 (makeAarch32LdrLiteral 1 rd (aarch32InsOffset blockSize code data)),
      data.write32 result)
  else if isAarch32LdrLiteral ins then
    let u := aarch32LdrLiteralDecodeU ins
    let rt := aarch32LdrLiteralDecodeRt ins
    let imm := aarch32LdrLiteralDecodeImm ins
    let addr := pcValueAligned oldBlock i
    let addr := if u ≠ 0 then addr + imm else addr - imm
    let offset := aarch32InsOffset blockSize code data
    (code.write32 (makeAarch32LdrLiteral 1 rt offset), data.write32 (mem.load32 addr))
  else
    (code.write32 ins, data)

/-- `LHRewriteAArch32Block`. -/
def rewriteAArch32Block (self : LHHooker 32) (mem : Memory 32) (oldBlock : BitVec 32)
    (blockSize : Nat) : Rewritten 32 :=
  let (code, data) := (List.range blockSize).foldl (rewriteAarch32Word mem oldBlock blockSize)
    (LHStream.init, LHStream.init)
  -- the jump back to the rest of the function
  let offset := aarch32InsOffset blockSize code data
  let code := code.write32 (makeAarch32LdrLiteral 1 12 offset)
  let code := code.write32 (makeAarch32Bx 12)
  let data := data.write32 (wordAddr oldBlock blockSize)
  copyToNewBlock self mem code data

end LeafHook
end KnShim
