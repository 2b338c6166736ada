import Mathlib.Algebra.Group.Int.Defs
import Mathlib.Algebra.Group.Nat.Defs
import Mathlib.Data.Nat.Basic

/-!
# Rounding — integers with a bounded number of significant bits

`roundNat p n` is what is left of `n` in a binary format with `p` bits of significand: the nearest
number with at most `p` significant bits, and of two that are equally near the one whose last bit is
zero.
-/

namespace KnShim
namespace Lib

/-- The bits that do not fit. -/
def excessBits (p n : Nat) : Nat := n.log2 + 1 - p

def roundNat (p n : Nat) : Nat :=
  let unit := 2 ^ excessBits p n
  let kept := n / unit
  let rest := n % unit
  -- ties go to even
  if 2 * rest > unit ∨ 2 * rest = unit ∧ kept % 2 = 1 then (kept + 1) * unit else kept * unit

def roundInt (p : Nat) (z : Int) : Int := z.sign * roundNat p z.natAbs

/-- `z` has at most `p` significant bits: those that do not fit are zero. -/
def FitsBits (p : Nat) (z : Int) : Prop := z.natAbs % 2 ^ excessBits p z.natAbs = 0

instance (p : Nat) (z : Int) : Decidable (FitsBits p z) := inferInstanceAs (Decidable (_ = _))

/-- A number is not changed exactly when the bits that do not fit are zero. -/
theorem roundNat_eq_self_iff {p n : Nat} : roundNat p n = n ↔ n % 2 ^ excessBits p n = 0 := by
  have hunit : 0 < 2 ^ excessBits p n := Nat.two_pow_pos _
  have hrest : n % 2 ^ excessBits p n < 2 ^ excessBits p n := Nat.mod_lt _ hunit
  have hsplit : n / 2 ^ excessBits p n * 2 ^ excessBits p n + n % 2 ^ excessBits p n = n :=
    Nat.div_add_mod' _ _
  rw [roundNat]
  split
  · rw [Nat.add_mul, Nat.one_mul]
    omega
  · omega

/-- A number that fits is not changed. -/
theorem roundNat_of_lt {p n : Nat} (hp : 0 < p) (h : n < 2 ^ p) : roundNat p n = n := by
  -- no bit is cut off, so there is nothing to round
  have hexcess : excessBits p n = 0 := by
    rcases Nat.eq_zero_or_pos n with rfl | hpos
    · rw [excessBits, Nat.log2_zero]
      omega
    · have hlog : n.log2 < p := (Nat.log2_lt (Nat.ne_of_gt hpos)).mpr h
      rw [excessBits]
      omega
  rw [roundNat_eq_self_iff, hexcess, Nat.pow_zero, Nat.mod_one]

theorem excessBits_le {p k n : Nat} (hp : 0 < p) (h : n ≤ 2 ^ k) : excessBits p n ≤ k := by
  rcases Nat.eq_zero_or_pos n with rfl | hpos
  · rw [excessBits, Nat.log2_zero]
    omega
  · have hlt : n < 2 ^ (k + 1) := lt_of_le_of_lt h (Nat.pow_lt_pow_succ (by decide))
    have hlog : n.log2 < k + 1 := (Nat.log2_lt (Nat.ne_of_gt hpos)).mpr hlt
    rw [excessBits]
    omega

/-- Powers of two have zeros to lose. -/
theorem roundNat_two_pow {p : Nat} (hp : 0 < p) (k : Nat) : roundNat p (2 ^ k) = 2 ^ k :=
  roundNat_eq_self_iff.mpr
    (Nat.mod_eq_zero_of_dvd (Nat.pow_dvd_pow 2 (excessBits_le hp (Nat.le_refl _))))

/-- Rounding does not go beyond a power of two. -/
theorem roundNat_le_two_pow {p k n : Nat} (hp : 0 < p) (h : n ≤ 2 ^ k) :
    roundNat p n ≤ 2 ^ k := by
  rcases Nat.lt_or_eq_of_le h with hlt | rfl
  · -- the bound is a multiple of the unit
    have hup : (n / 2 ^ excessBits p n + 1) * 2 ^ excessBits p n ≤ 2 ^ k := by
      rcases Nat.pow_dvd_pow 2 (excessBits_le hp h) with ⟨c, hc⟩
      rw [hc, Nat.mul_comm _ c]
      refine Nat.mul_le_mul_right _ ?_
      rwa [Nat.succ_le_iff, Nat.div_lt_iff_lt_mul (Nat.two_pow_pos _), Nat.mul_comm, ← hc]
    rw [roundNat]
    split
    · exact hup
    · exact le_trans (Nat.mul_le_mul_right _ (Nat.le_succ _)) hup
  · exact Nat.le_of_eq (roundNat_two_pow hp k)

theorem natAbs_roundInt (p : Nat) (z : Int) : (roundInt p z).natAbs = roundNat p z.natAbs := by
  rcases eq_or_ne z 0 with rfl | hz
  · have hzero : roundNat p 0 = 0 := roundNat_eq_self_iff.mpr (Nat.zero_mod _)
    simp [roundInt, hzero]
  · rw [roundInt, Int.natAbs_mul, Int.natAbs_sign_of_ne_zero hz, Nat.one_mul, Int.natAbs_natCast]

/-- Integers of at most `2 ^ p` are not changed. -/
theorem roundInt_of_le {p : Nat} {z : Int} (hp : 0 < p) (h : z.natAbs ≤ 2 ^ p) :
    roundInt p z = z := by
  have hround : roundNat p z.natAbs = z.natAbs := by
    rcases Nat.lt_or_eq_of_le h with hlt | heq
    · exact roundNat_of_lt hp hlt
    · rw [heq, roundNat_two_pow hp]
  rw [roundInt, hround, Int.sign_mul_natAbs]

theorem roundInt_eq_self_iff {p : Nat} {z : Int} : roundInt p z = z ↔ FitsBits p z := by
  rw [FitsBits, ← roundNat_eq_self_iff, ← natAbs_roundInt]
  constructor
  · intro h
    rw [h]
  · intro h
    rw [natAbs_roundInt] at h
    rw [roundInt, h, Int.sign_mul_natAbs]

theorem roundInt_of_lt {p n : Nat} (hp : 0 < p) (h : n < 2 ^ p) : roundInt p n = n :=
  roundInt_of_le hp (by simpa using Nat.le_of_lt h)

end Lib
end KnShim
