import KnShim.Lib.Memory
import Mathlib.Data.Nat.Basic

/-!
# LeafHook — streams and the stub area

A stub is written to two streams, one for code and one for data, and copied from there to the stub
area.  A stream holds at most `LH_STREAM_MAX_SIZE` bytes and drops a write that does not fit.
-/

namespace KnShim
namespace LeafHook

open Lib

/-- `LH_STREAM_MAX_SIZE`. -/
def streamMaxSize : Nat := 0x100

/-- `LHStream`: the bytes below the head. -/
structure LHStream where
  data : Bytes
  fits : data.length ≤ streamMaxSize

namespace LHStream

/-- `LHStreamInit`. -/
def init : LHStream := ⟨[], Nat.zero_le _⟩

/-- `LHStreamTell`. -/
def tell (self : LHStream) : Nat := self.data.length

/-- `LHStreamWrite`. -/
def write (self : LHStream) (bs : Bytes) : LHStream :=
  if h : self.tell + bs.length > streamMaxSize then
    self
  else
    ⟨self.data ++ bs, by
      rw [List.length_append]
      exact Nat.le_of_not_lt h⟩

/-- `LHStreamWrite32`. -/
def write32 (self : LHStream) (data : BitVec 32) : LHStream := self.write (toLE 4 data.toNat)

/-- `LHStreamWrite64`. -/
def write64 (self : LHStream) (data : BitVec 64) : LHStream := self.write (toLE 8 data.toNat)

/-- A write that fits is appended. -/
theorem write_data {self : LHStream} {bs : Bytes} (h : self.tell + bs.length ≤ streamMaxSize) :
    (self.write bs).data = self.data ++ bs := by
  rw [write, dif_neg (Nat.not_lt.mpr h)]

theorem write_nil (self : LHStream) : self.write [] = self := by
  have hfits : ¬ (self.tell + ([] : Bytes).length > streamMaxSize) := Nat.not_lt.mpr self.fits
  rw [write, dif_neg hfits]
  simp only [List.append_nil]

/-- A word of memory is written as its bytes. -/
theorem write32_load {w : Nat} (self : LHStream) (mem : Memory w) (a : BitVec w) :
    self.write32 (mem.load32 a) = self.write (mem.read a 4) :=
  congrArg self.write (Memory.toLE_load mem a 4)

theorem write64_load {w : Nat} (self : LHStream) (mem : Memory w) (a : BitVec w) :
    self.write64 (mem.load64 a) = self.write (mem.read a 8) :=
  congrArg self.write (Memory.toLE_load mem a 8)

end LHStream

/-- `LHHooker`.  Pages are aligned, and the used size is rounded up to words. -/
structure LHHooker (w : Nat) where
  rwxBlock : BitVec w
  rwxBlockSize : Nat
  rwxBlockUsed : Nat
  block_aligned : rwxBlock.toNat % 4 = 0
  used_aligned : rwxBlockUsed % 4 = 0

/-- Words from a word on. -/
theorem add_ofNat_aligned {w : Nat} (hw : 2 ≤ w) {a : BitVec w} {k : Nat} (ha : a.toNat % 4 = 0)
    (hk : k % 4 = 0) : (a + BitVec.ofNat w k).toNat % 4 = 0 := by
  have hdvd : 4 ∣ 2 ^ w := Nat.pow_dvd_pow 2 hw
  rw [BitVec.toNat_add, BitVec.toNat_ofNat, Nat.add_mod_mod, Nat.mod_mod_of_dvd _ hdvd]
  omega

namespace LHHooker

variable {w : Nat}

/-- The size of an allocation, rounded up to words. -/
def roundUp (size : Nat) : Nat :=
  if size &&& 3 ≠ 0 then size + (4 - (size &&& 3)) else size

theorem roundUp_aligned (size : Nat) : roundUp size % 4 = 0 := by
  have hmask : size &&& 3 = size % 4 := Nat.and_two_pow_sub_one_eq_mod size 2
  rw [roundUp, hmask]
  split <;> omega

/-- `LHHookerAllocRwx`.  The size of the block is not checked. -/
def allocRwx (self : LHHooker w) (size : Nat) : BitVec w × LHHooker w :=
  (self.rwxBlock + BitVec.ofNat w self.rwxBlockUsed,
    { self with
      rwxBlockUsed := self.rwxBlockUsed + roundUp size
      used_aligned := by
        have hused := self.used_aligned
        have hsize := roundUp_aligned size
        omega })

/-- Allocations start at words. -/
theorem allocRwx_aligned (self : LHHooker w) (size : Nat) (hw : 2 ≤ w) :
    (self.allocRwx size).1.toNat % 4 = 0 :=
  add_ofNat_aligned hw self.block_aligned self.used_aligned

end LHHooker

/-- What is left of the rewriting of a block: the stub, and the state of the hooker and of the
memory. -/
structure Rewritten (w : Nat) where
  newBlock : BitVec w
  hooker : LHHooker w
  mem : Memory w

variable {w : Nat}

/-- `&old_block[i]`. -/
def wordAddr (oldBlock : BitVec w) (i : Nat) : BitVec w := oldBlock + BitVec.ofNat w (4 * i)

theorem wordAddr_aligned (hw : 2 ≤ w) {a : BitVec w} (h : a.toNat % 4 = 0) (i : Nat) :
    (wordAddr a i).toNat % 4 = 0 := add_ofNat_aligned hw h (Nat.mul_mod_right 4 i)

/-- `LH_COPY_TO_NEW_BLOCK`. -/
def copyToNewBlock (self : LHHooker w) (mem : Memory w) (code data : LHStream) : Rewritten w :=
  let (newBlock, self) := self.allocRwx (code.tell + data.tell)
  let mem := mem.write newBlock code.data
  let mem := mem.write (newBlock + BitVec.ofNat w code.tell) data.data
  ⟨newBlock, self, mem⟩

/-- The code and the data end up one behind the other. -/
theorem copyToNewBlock_mem (self : LHHooker w) (mem : Memory w) (code data : LHStream)
    (hw : 9 ≤ w) :
    (copyToNewBlock self mem code data).mem =
      mem.write (copyToNewBlock self mem code data).newBlock (code.data ++ data.data) := by
  have hsize : code.data.length + data.data.length ≤ 2 ^ w := by
    have hcode := code.fits
    have hdata := data.fits
    calc
      code.data.length + data.data.length ≤ 2 ^ 9 := by
        simp only [streamMaxSize] at hcode hdata
        omega
      _ ≤ 2 ^ w := Nat.pow_le_pow_right (by decide) hw
  exact Memory.write_append mem _ code.data data.data hsize

end LeafHook
end KnShim
