import KnShim.Lib.Bits
import KnShim.Lib.Condition
import KnShim.Lib.WriteLog
import KnShim.PeekPoke.Primitives

/-!
# PeekPoke.Branches — inverting a branch

`invert_branch` flips the lowest bit of the condition of an instruction.  That makes the condition
its opposite unless it holds always.  ARMv7 refuses the conditions that do; on AArch64 the code
flips them too and reports that the branch has been inverted.
-/

namespace KnShim
namespace PeekPoke

open Lib Lua

/-! ## The condition of an instruction -/

/-- The lowest bit of the condition field. -/
def condStart : Target → Nat
  | .armv7 => 28
  | .aarch64 => 0

def condOf (target : Target) (word : BitVec 32) : BitVec 4 :=
  word.extractLsb' (condStart target) 4

/-- The words that `invert_branch` takes for conditional. -/
def Accepts : Target → BitVec 32 → Prop
  | .armv7, word => word >>> 29 ≠ 0b111#32
  | .aarch64, word => word >>> 24 = 0b01010100#32

instance (target : Target) (word : BitVec 32) : Decidable (Accepts target word) :=
  match target with
  | .armv7 => inferInstanceAs (Decidable (_ ≠ _))
  | .aarch64 => inferInstanceAs (Decidable (_ = _))

/-- The bit that is flipped. -/
def flipMask : Target → BitVec 32
  | .armv7 => 0x10000000#32
  | .aarch64 => 1#32

variable {target : Target}

theorem flipMask_eq (target : Target) : flipMask target = BitVec.twoPow 32 (condStart target) := by
  cases target <;> decide

theorem condOf_flip (word : BitVec 32) :
    condOf target (word ^^^ flipMask target) = Condition.invert (condOf target word) := by
  have hmask : (flipMask target).extractLsb' (condStart target) 4 = 1#4 := by
    cases target <;> decide
  rw [condOf, BitVec.extractLsb'_xor, hmask]
  rfl

/-- The other fields of the word stay. -/
theorem getLsbD_flip (word : BitVec 32) {i : Nat} (hi : i ≠ condStart target) :
    (word ^^^ flipMask target).getLsbD i = word.getLsbD i := by
  have hbit : (flipMask target).getLsbD i = false := by
    rw [flipMask_eq, BitVec.getLsbD_twoPow]
    simp [Ne.symm hi]
  rw [BitVec.getLsbD_xor, hbit, Bool.xor_false]

theorem accepts_flip (word : BitVec 32) :
    Accepts target (word ^^^ flipMask target) ↔ Accepts target word := by
  cases target with
  | armv7 =>
      have hmask : flipMask .armv7 >>> 29 = 0#32 := by decide
      rw [Accepts, Accepts, BitVec.ushiftRight_xor_distrib, hmask, BitVec.xor_zero]
  | aarch64 =>
      have hmask : flipMask .aarch64 >>> 24 = 0#32 := by decide
      rw [Accepts, Accepts, BitVec.ushiftRight_xor_distrib, hmask, BitVec.xor_zero]

/-- ARMv7 accepts the conditions that look at a flag. -/
theorem armv7_accepts_iff (word : BitVec 32) :
    Accepts .armv7 word ↔ ¬ Condition.Always (condOf .armv7 word) := by
  have hfield : (condOf .armv7 word).extractLsb' 1 3 = word.extractLsb' 29 3 :=
    extractLsb'_extractLsb' word (by decide)
  have hlt : word.toNat >>> 29 < 2 ^ 3 := by
    rw [Nat.shiftRight_eq_div_pow]
    have := word.isLt
    omega
  rw [Accepts, Condition.Always, hfield, Ne, ← BitVec.toNat_inj, ← BitVec.toNat_inj,
    BitVec.extractLsb'_toNat, BitVec.toNat_ushiftRight, Nat.mod_eq_of_lt hlt]
  rfl

/-! ## What `invert_branch` does -/

/-- The memory with another word at the address. -/
def withWord (space : Space target.wordBits) (addr : BitVec target.wordBits) (word : BitVec 32) :
    Space target.wordBits :=
  { space with bytes := space.bytes.store32 addr word }

section Words

variable {space : Space target.wordBits} {addr : BitVec target.wordBits} {word : BitVec 32}

theorem load_withWord (hcovers : space.covers addr 4 = true) (word' : BitVec 32) :
    (withWord space addr word').load addr 4 = .ok word' := by
  have hsize : 4 ≤ 2 ^ target.wordBits := by cases target <;> decide
  have hload : (withWord space addr word').bytes.load addr 4 = word' :=
    Memory.load_write_toLE (n := 4) space.bytes addr word' hsize
  have hcovers' : (withWord space addr word').covers addr 4 = true := hcovers
  rw [Space.load, if_pos hcovers', hload]

/-- Putting the word back that was there restores the memory. -/
theorem withWord_withWord (hword : space.bytes.load32 addr = word) (word' : BitVec 32) :
    withWord (withWord space addr word') addr word = space := by
  have hbytes : toLE 4 word.toNat = space.bytes.read addr 4 := by
    rw [← hword]
    exact Memory.toLE_load space.bytes addr 4
  have hrestored : (space.bytes.store32 addr word').store32 addr word = space.bytes := by
    rw [Memory.store32, Memory.store32, Memory.write_write _ _ (by simp), hbytes]
    exact space.bytes.write_read_self addr
  rw [withWord, withWord, hrestored]

theorem write_word (hcovers : space.covers addr 4 = true) (word' : BitVec 32) :
    space.write addr (toLE 4 word'.toNat) = .ok (withWord space addr word') := by
  rw [Space.write_of_covers (by rwa [toLE_length])]
  rfl

/-- The bit is flipped, and the answer is 0, for the words that are accepted. -/
theorem invertBranch_eq (h : space.load addr 4 = .ok word) :
    invertBranch space addr =
      if Accepts target word then .ok (0, withWord space addr (word ^^^ flipMask target))
      else .ok (1, space) := by
  have hwrite := write_word (Space.of_load h).1 (word ^^^ flipMask target)
  rw [invertBranch, h, Fallible.ok_bind]
  cases target with
  | armv7 =>
      by_cases haccepts : Accepts .armv7 word
      · have hwrite' : space.write addr (toLE 4 (word ^^^ 0x10000000).toNat) = _ := hwrite
        rw [if_pos haccepts]
        simp only [hwrite', Fallible.ok_bind]
        exact if_pos haccepts
      · rw [if_neg haccepts]
        exact if_neg haccepts
  | aarch64 =>
      by_cases haccepts : Accepts .aarch64 word
      · have hwrite' : space.write addr (toLE 4 (word ^^^ 1).toNat) = _ := hwrite
        rw [if_pos haccepts]
        simp only [hwrite', Fallible.ok_bind]
        exact if_pos haccepts
      · rw [if_neg haccepts]
        exact if_neg haccepts

/-! ## Inversion -/

/-- Outside the condition field the words are the same, and one condition holds when the other does
not. -/
structure Opposite (target : Target) (flags : Flags) (word word' : BitVec 32) : Prop where
  outside : ∀ i, ¬ (condStart target ≤ i ∧ i < condStart target + 4) →
    word'.getLsbD i = word.getLsbD i
  holds : Condition.holds flags (condOf target word') = true ↔
    ¬ Condition.holds flags (condOf target word) = true

/-- With the answer 0, for which `knInvertBranch` returns the address, the word has been replaced by
its opposite, and inverting the branch again restores the memory.  With any other answer nothing has
been changed. -/
def InvertsRight (flags : Flags) (space : Space target.wordBits) (addr : BitVec target.wordBits)
    (word : BitVec 32) : Prop :=
  ∃ code space', invertBranch space addr = .ok (code, space') ∧
    invertBranchAt space addr = .ok (if code = 0 then .ofInteger addr else .nil, space') ∧
    (code = 0 → ∃ word', space' = withWord space addr word' ∧ space'.load addr 4 = .ok word' ∧
      Opposite target flags word word' ∧ invertBranch space' addr = .ok (0, space)) ∧
    (code ≠ 0 → space' = space)

theorem invertBranchAt_eq {code : Nat} {space' : Space target.wordBits}
    (h : invertBranch space addr = .ok (code, space')) :
    invertBranchAt space addr = .ok (if code = 0 then .ofInteger addr else .nil, space') := by
  rw [invertBranchAt, h, Fallible.ok_bind]
  by_cases hcode : code = 0 <;> simp [hcode]

/-- The word that is put there is the opposite one unless the condition holds always. -/
theorem opposite_flip_iff (flags : Flags) :
    Opposite target flags word (word ^^^ flipMask target) ↔
      ¬ Condition.Always (condOf target word) := by
  constructor
  · intro h halways
    -- both conditions hold
    have hflip : Condition.Always (condOf target (word ^^^ flipMask target)) := by
      rw [condOf_flip, Condition.always_invert]
      exact halways
    exact h.holds.mp (Condition.holds_of_always flags hflip)
      (Condition.holds_of_always flags halways)
  · intro h
    refine ⟨fun i hi => getLsbD_flip word ?_, ?_⟩
    · rintro rfl
      exact hi ⟨Nat.le_refl _, by omega⟩
    · rw [condOf_flip, Condition.holds_invert flags h]
      simp

/-- Of the words that are accepted those are inverted rightly whose condition looks at a flag. -/
theorem invertsRight_iff_of_accepts (flags : Flags) (hword : space.load addr 4 = .ok word)
    (haccepts : Accepts target word) :
    InvertsRight flags space addr word ↔ ¬ Condition.Always (condOf target word) := by
  rcases Space.of_load hword with ⟨hcovers, hbytes⟩
  have hrun := invertBranch_eq hword
  rw [if_pos haccepts] at hrun
  have hload := load_withWord hcovers (word ^^^ flipMask target)
  -- the second call flips the bit back
  have hagain : invertBranch (withWord space addr (word ^^^ flipMask target)) addr =
      .ok (0, space) := by
    rw [invertBranch_eq hload, if_pos ((accepts_flip word).mpr haccepts), BitVec.xor_assoc,
      BitVec.xor_self, BitVec.xor_zero, withWord_withWord hbytes]
  rw [← opposite_flip_iff flags]
  constructor
  · rintro ⟨code, space', hcode, _, hsuccess, _⟩
    rw [hrun] at hcode
    cases hcode
    rcases hsuccess rfl with ⟨word', _, hload', hopposite, _⟩
    rw [hload] at hload'
    cases hload'
    exact hopposite
  · intro hopposite
    exact ⟨0, _, hrun, invertBranchAt_eq hrun, fun _ => ⟨_, rfl, hload, hopposite, hagain⟩,
      fun h => absurd rfl h⟩

/-- The other words stay. -/
theorem invertsRight_of_not_accepts (flags : Flags) (hword : space.load addr 4 = .ok word)
    (haccepts : ¬ Accepts target word) : InvertsRight flags space addr word := by
  have hrun := invertBranch_eq hword
  rw [if_neg haccepts] at hrun
  exact ⟨1, space, hrun, invertBranchAt_eq hrun, fun h => absurd h (by decide), fun _ => rfl⟩

/-- A word in memory is inverted rightly unless it is a `B.cond` or `BC.cond` of AArch64 whose
condition is `1110` or `1111`. -/
theorem invertsRight_iff (target : Target) (flags : Flags) {space : Space target.wordBits}
    {addr : BitVec target.wordBits} {word : BitVec 32} (hword : space.load addr 4 = .ok word) :
    InvertsRight flags space addr word ↔
      ¬ (target = .aarch64 ∧ word >>> 24 = 0b01010100#32 ∧
        Condition.Always (condOf target word)) := by
  by_cases haccepts : Accepts target word
  · rw [invertsRight_iff_of_accepts flags hword haccepts]
    cases target with
    | armv7 =>
        -- ARMv7 has accepted no condition that holds always
        exact iff_of_true ((armv7_accepts_iff word).mp haccepts) (by simp)
    | aarch64 =>
        have hbranch : word >>> 24 = 0b01010100#32 := haccepts
        simp [hbranch]
  · refine iff_of_true (invertsRight_of_not_accepts flags hword haccepts) ?_
    rintro ⟨rfl, hbranch, _⟩
    exact haccepts hbranch

end Words

/-! ## Two words -/

/-- A memory that is mapped everywhere and holds a word at `0x1000`. -/
def holding (target : Target) (word : BitVec 32) : Space target.wordBits where
  bytes := Memory.store32 (fun _ => 0) 0x1000#(target.wordBits) word
  mapped := fun _ => true

/-- `B.NE` becomes `B.EQ`. -/
theorem invertsRight_ne :
    InvertsRight ⟨false, true, false, false⟩ (holding .aarch64 0x54000041#32) 0x1000#64
      0x54000041#32 :=
  (invertsRight_iff .aarch64 ⟨false, true, false, false⟩ (by decide +kernel)).mpr (by decide)

/-- `B.AL` becomes `B.NV`, which is taken as well. -/
theorem not_invertsRight_al :
    ¬ InvertsRight ⟨false, false, false, false⟩ (holding .aarch64 0x5400004e#32) 0x1000#64
      0x5400004e#32 := by
  have hword : (holding .aarch64 0x5400004e#32).load 0x1000#64 4 = .ok 0x5400004e#32 := by
    decide +kernel
  rw [invertsRight_iff_of_accepts _ hword (by decide)]
  decide

end PeekPoke
end KnShim
