import Mathlib.Algebra.Group.Nat.Defs
import Mathlib.Data.List.Basic
import Mathlib.Data.Nat.Basic

/-!
# LittleEndian — integers as little-endian bytes

`toLE w n` is the low `w` bytes of `n`, least significant first, and `ofLE` reads bytes back.  The
two are inverse to each other: `ofLE_toLE` modulo `256 ^ w`, and `toLE_ofLE` on any bytes.
-/

namespace KnShim
namespace Lib

/-- The low `w` bytes of `n`, least significant first. -/
def toLE : Nat → Nat → List UInt8
  | 0, _ => []
  | w + 1, n => UInt8.ofNat n :: toLE w (n / 256)

/-- The number that the bytes spell, least significant first. -/
def ofLE : List UInt8 → Nat
  | [] => 0
  | b :: bs => b.toNat + 256 * ofLE bs

@[simp] theorem toLE_length (w n : Nat) : (toLE w n).length = w := by
  induction w generalizing n with
  | zero => rfl
  | succ w ih => simp [toLE, ih]

theorem ofLE_lt (bs : List UInt8) : ofLE bs < 256 ^ bs.length := by
  induction bs with
  | nil => exact Nat.one_pos
  | cons b bs ih =>
      have hb : b.toNat < 256 := b.toNat_lt
      calc
        ofLE (b :: bs) = b.toNat + 256 * ofLE bs := rfl
        _ < 256 * (ofLE bs + 1) := by omega
        _ ≤ 256 * 256 ^ bs.length := Nat.mul_le_mul_left 256 ih
        _ = 256 ^ (b :: bs).length := by rw [List.length_cons, Nat.pow_succ, Nat.mul_comm]

/-- Reading back what was written loses only the bytes that did not fit. -/
theorem ofLE_toLE (w n : Nat) : ofLE (toLE w n) = n % 256 ^ w := by
  induction w generalizing n with
  | zero => simp [toLE, ofLE, Nat.mod_one]
  | succ w ih =>
      have hbyte : (UInt8.ofNat n).toNat = n % 256 := UInt8.toNat_ofNat'
      calc
        ofLE (toLE (w + 1) n) = n % 256 + 256 * (n / 256 % 256 ^ w) := by
          rw [toLE, ofLE, ih, hbyte]
        _ = n % (256 * 256 ^ w) := (Nat.mod_mul).symm
        _ = n % 256 ^ (w + 1) := by rw [Nat.pow_succ, Nat.mul_comm]

theorem ofLE_toLE_of_lt {w n : Nat} (h : n < 256 ^ w) : ofLE (toLE w n) = n := by
  rw [ofLE_toLE, Nat.mod_eq_of_lt h]

/-- Bytes that do not fit are not looked at. -/
theorem toLE_mod (w n : Nat) : toLE w (n % 256 ^ w) = toLE w n := by
  induction w generalizing n with
  | zero => rfl
  | succ w ih =>
      have hpow : 256 ^ (w + 1) = 256 * 256 ^ w := by rw [Nat.pow_succ, Nat.mul_comm]
      have hbyte : UInt8.ofNat (n % 256 ^ (w + 1)) = UInt8.ofNat n := by
        apply UInt8.toNat_inj.mp
        rw [UInt8.toNat_ofNat', UInt8.toNat_ofNat', hpow, Nat.mod_mul_right_mod]
      have hrest : n % 256 ^ (w + 1) / 256 = n / 256 % 256 ^ w := by
        rw [hpow, Nat.mod_mul_right_div_self]
      rw [toLE, toLE, hbyte, hrest, ih]

/-- The low bytes and the high bytes. -/
theorem toLE_add (v w n : Nat) : toLE (v + w) n = toLE v n ++ toLE w (n / 256 ^ v) := by
  induction v generalizing n with
  | zero => rw [Nat.zero_add, Nat.pow_zero, Nat.div_one, toLE, List.nil_append]
  | succ v ih =>
      have hdiv : n / 256 / 256 ^ v = n / 256 ^ (v + 1) := by
        rw [Nat.div_div_eq_div_mul, Nat.pow_succ, Nat.mul_comm]
      rw [Nat.add_right_comm, toLE, toLE, List.cons_append, ih, hdiv]

/-- Writing what was read gives the bytes back. -/
theorem toLE_ofLE (bs : List UInt8) : toLE bs.length (ofLE bs) = bs := by
  induction bs with
  | nil => rfl
  | cons b bs ih =>
      have hb : b.toNat < 256 := b.toNat_lt
      have hlow : UInt8.ofNat (b.toNat + 256 * ofLE bs) = b := by
        apply UInt8.toNat_inj.mp
        rw [UInt8.toNat_ofNat']
        omega
      have hhigh : (b.toNat + 256 * ofLE bs) / 256 = ofLE bs := by omega
      rw [List.length_cons, toLE, ofLE, hlow, hhigh, ih]

/-- Bytes of one length spell one number exactly when they are the same. -/
theorem ofLE_inj {bs bs' : List UInt8} (hlen : bs.length = bs'.length) :
    ofLE bs = ofLE bs' ↔ bs = bs' := by
  refine ⟨fun h => ?_, fun h => congrArg ofLE h⟩
  calc
    bs = toLE bs.length (ofLE bs) := (toLE_ofLE bs).symm
    _ = toLE bs'.length (ofLE bs') := by rw [h, hlen]
    _ = bs' := toLE_ofLE bs'

end Lib
end KnShim
