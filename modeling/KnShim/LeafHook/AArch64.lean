import KnShim.LeafHook.Stream

/-!
# LeafHook.AArch64 — moving a block of A64 code

`LHRewriteAArch64Block` with the macros it uses.  Words are `BitVec 32` and addresses and `size_t`
are `BitVec 64`; a macro that builds a word takes its operands cut to 32 bits, as the word is.
-/

namespace KnShim
namespace LeafHook

open Lib

/-! ## Macros -/

/-- `LH_SEXT_ISNEG`. -/
def sextIsNeg (input : BitVec 32) (nbits : Nat) : Bool :=
  input &&& (1#32 <<< (nbits - 1)) ≠ 0

/-- `LH_SEXT64_NB`. -/
def sext64Nb (nbits : Nat) : BitVec 64 :=
  0xffffffffffffffff#64 - ((1#64 <<< (nbits - 1)) - 1#64)

/-- `LH_SEXT64`. -/
def sext64 (input : BitVec 32) (nbits : Nat) : BitVec 64 :=
  if sextIsNeg input nbits then sext64Nb nbits ||| input.setWidth 64 else input.setWidth 64

/-- `AARCH64_ADR_DECODE_IMM`. -/
def aarch64AdrDecodeImm (input : BitVec 32) : BitVec 32 :=
  (((input >>> 29) &&& 0x3#32) <<< 0) ||| (((input >>> 5) &&& 0x7ffff#32) <<< 2)

/-- `AARCH64_ADR_DECODE_RD`. -/
def aarch64AdrDecodeRd (input : BitVec 32) : BitVec 32 :=
  ((input >>> 0) &&& 0x1f#32) <<< 0

/-- `IS_AARCH64_ADR`. -/
def isAarch64Adr (input : BitVec 32) : Prop := input &&& 0x9f000000#32 = 0x10000000#32

/-- `IS_AARCH64_ADRP`. -/
def isAarch64Adrp (input : BitVec 32) : Prop := input &&& 0x9f000000#32 = 0x90000000#32

/-- `MAKE_AARCH64_LDR_LITERAL`. -/
def makeAarch64LdrLiteral (x imm rt : BitVec 32) : BitVec 32 :=
  ((rt &&& 0x1f#32) <<< 0) ||| ((imm &&& 0x7ffff#32) <<< 5) ||| (0b011000#32 <<< 24) |||
    ((x &&& 0x1#32) <<< 30) ||| (0b0#32 <<< 31)

/-- `AARCH64_LDR_LITERAL_DECODE_X`. -/
def aarch64LdrLiteralDecodeX (input : BitVec 32) : BitVec 32 :=
  ((input >>> 30) &&& 0x1#32) <<< 0

/-- `AARCH64_LDR_LITERAL_DECODE_IMM`. -/
def aarch64LdrLiteralDecodeImm (input : BitVec 32) : BitVec 32 :=
  ((input >>> 5) &&& 0x7ffff#32) <<< 0

/-- `AARCH64_LDR_LITERAL_DECODE_RT`. -/
def aarch64LdrLiteralDecodeRt (input : BitVec 32) : BitVec 32 :=
  ((input >>> 0) &&& 0x1f#32) <<< 0

/-- `IS_AARCH64_LDR_LITERAL`. -/
def isAarch64LdrLiteral (input : BitVec 32) : Prop := input &&& 0xbf000000#32 = 0x18000000#32

/-- `MAKE_AARCH64_BR`. -/
def makeAarch64Br (rn : BitVec 32) : BitVec 32 :=
  (0b00000#32 <<< 0) ||| ((rn &&& 0x1f#32) <<< 5) ||| (0b1101011000011111000000#32 <<< 10)

instance (input : BitVec 32) : Decidable (isAarch64Adr input) :=
  inferInstanceAs (Decidable (_ = _))

instance (input : BitVec 32) : Decidable (isAarch64Adrp input) :=
  inferInstanceAs (Decidable (_ = _))

instance (input : BitVec 32) : Decidable (isAarch64LdrLiteral input) :=
  inferInstanceAs (Decidable (_ = _))

/-! ## `LHRewriteAArch64Block` -/

/-- `LH_INS_OFFSET`: from the next instruction to the next datum. -/
def aarch64InsOffset (blockSize : Nat) (code data : LHStream) : BitVec 64 :=
  BitVec.ofNat 64 ((blockSize + 2) * 4) - BitVec.ofNat 64 code.tell + BitVec.ofNat 64 data.tell

/-- `LH_INS_OFFSET >> 2`, as an operand of `MAKE_AARCH64_LDR_LITERAL`. -/
def aarch64InsWords (offset : BitVec 64) : BitVec 32 := (offset >>> 2).setWidth 32

/-- One round of the loop of `LHRewriteAArch64Block`. -/
def rewriteAarch64Word (mem : Memory 64) (oldBlock : BitVec 64) (blockSize : Nat)
    (streams : LHStream × LHStream) (i : Nat) : LHStream × LHStream :=
  let (code, data) := streams
  let ins := mem.load32 (wordAddr oldBlock i)
  if isAarch64Adr ins then
    let rd := aarch64AdrDecodeRd ins
    let imm := sext64 (aarch64AdrDecodeImm ins) 21
    let result := wordAddr oldBlock i + imm
    let offset := aarch64InsOffset blockSize code data
    (code.write32 (makeAarch64LdrLiteral 1 (aarch64InsWords offset) rd), data.write64 result)
  else if isAarch64Adrp ins then
    -- similar to adr, but with respect to pages
    let rd := aarch64AdrDecodeRd ins
    let imm := sext64 (aarch64AdrDecodeImm ins) 21 <<< 12
    let result := (wordAddr oldBlock i &&& 0xfffffffffffff000#64) + imm
    let offset := aarch64InsOffset blockSize code data
    (code.write32 (makeAarch64LdrLiteral 1 (aarch64InsWords offset) rd), data.write64 result)
  else if isAarch64LdrLiteral ins then
    let x := aarch64LdrLiteralDecodeX ins
    let rt := aarch64LdrLiteralDecodeRt ins
    let imm := sext64 (aarch64LdrLiteralDecodeImm ins) 19 <<< 2
    let offset := aarch64InsOffset blockSize code data
    let code := code.write32 (makeAarch64LdrLiteral x (aarch64InsWords offset) rt)
    if x ≠ 0 then
      -- the pointer is indexed with `i`
      (code, data.write64 (mem.load64 (wordAddr oldBlock i + imm + BitVec.ofNat 64 (8 * i))))
    else
      (code, data.write32 (mem.load32 (wordAddr oldBlock i + imm + BitVec.ofNat 64 (4 * i))))
  else
    (code.write32 ins, data)

/-- `LHRewriteAArch64Block`. -/
def rewriteAArch64Block (self : LHHooker 64) (mem : Memory 64) (oldBlock : BitVec 64)
    (blockSize : Nat) : Rewritten 64 :=
  let (code, data) := (List.range blockSize).foldl (rewriteAarch64Word mem oldBlock blockSize)
    (LHStream.init, LHStream.init)
  -- the jump back to the end of the block
  let offset := aarch64InsOffset blockSize code data
  let code := code.write32 (makeAarch64LdrLiteral 1 (aarch64InsWords offset) 16)
  let code := code.write32 (makeAarch64Br 16)
  let data := data.write64 (wordAddr oldBlock blockSize)
  copyToNewBlock self mem code data

end LeafHook
end KnShim
