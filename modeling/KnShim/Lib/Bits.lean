import Mathlib.Algebra.Group.Nat.Defs
import Mathlib.Data.Nat.Basic
import Mathlib.Logic.Basic

/-!
# Bits — fields of machine words

C code takes a word apart with shifts and masks and puts one together with `|`.  Here a field is
`extractLsb' start l`, and `place n start v` is the word of `n` bits with `v` at `start` and zeros
around it.  The lemmas turn masks and shifts into these two, one field at a time.
-/

namespace KnShim
namespace Lib

open BitVec

variable {n l k : Nat}

/-- The word with the field `v` at bit `start`. -/
def place (n start : Nat) (v : BitVec l) : BitVec n := v.setWidth n <<< start

theorem getLsbD_place (start : Nat) (v : BitVec l) (i : Nat) :
    (place n start v).getLsbD i =
      (decide (i < n) && (decide (start ≤ i) && v.getLsbD (i - start))) := by
  rw [place, getLsbD_shiftLeft, getLsbD_setWidth]
  by_cases hi : i < n
  · have hsub : i - start < n := by omega
    by_cases hs : start ≤ i
    · simp [hi, hs, hsub, Nat.not_lt.mpr hs]
    · simp [hs, Nat.lt_of_not_le hs]
  · simp [hi]

/-- Widening loses nothing. -/
theorem setWidth_setWidth_self (v : BitVec l) (h : l ≤ n) : (v.setWidth n).setWidth l = v := by
  rw [BitVec.setWidth_setWidth_of_le _ h, BitVec.setWidth_eq]

theorem setWidth_signExtend (v : BitVec l) (h : l ≤ n) : (v.signExtend n).setWidth l = v := by
  ext i hi
  rw [BitVec.getElem_setWidth, BitVec.getLsbD_signExtend]
  simp [hi, lt_of_lt_of_le hi h]

/-- A field of a field. -/
theorem extractLsb'_extractLsb' (w : BitVec n) {s l t : Nat} (h : t + k ≤ l) :
    (w.extractLsb' s l).extractLsb' t k = w.extractLsb' (s + t) k := by
  apply eq_of_getLsbD_eq
  intro i hi
  have hlt : t + i < l := by omega
  simp [hi, hlt, Nat.add_assoc]

/-! ## Fields of a placed field -/

/-- A part of the field is that part of the value. -/
theorem extractLsb'_place {start t : Nat} (v : BitVec l) (hstart : start ≤ t)
    (hpart : t + k ≤ start + l) (hfits : start + l ≤ n) :
    (place n start v).extractLsb' t k = v.extractLsb' (t - start) k := by
  apply eq_of_getLsbD_eq
  intro i hi
  have hlt : t + i < n := by omega
  have hle : start ≤ t + i := by omega
  have hsub : t + i - start = t - start + i := by omega
  rw [getLsbD_extractLsb', getLsbD_extractLsb', getLsbD_place, hsub]
  simp [hlt, hle]

theorem extractLsb'_place_self (start : Nat) (v : BitVec l) (hfits : start + l ≤ n) :
    (place n start v).extractLsb' start l = v := by
  rw [extractLsb'_place v (Nat.le_refl _) (Nat.le_refl _) hfits, Nat.sub_self, extractLsb'_eq_self]

/-- The other fields are zero. -/
theorem extractLsb'_place_of_disjoint {start t : Nat} (v : BitVec l)
    (h : start + l ≤ t ∨ t + k ≤ start) : (place n start v).extractLsb' t k = 0#k := by
  apply eq_of_getLsbD_eq
  intro i hi
  rw [getLsbD_extractLsb', getLsbD_place, getLsbD_zero]
  -- above the field its value has no bits, below it the shift put zeros
  rcases h with h | h
  · have hhigh : v.getLsbD (t + i - start) = false := getLsbD_of_ge v _ (by omega)
    simp [hhigh]
  · have hlow : ¬ start ≤ t + i := by omega
    simp [hlow]

/-! ## Masks -/

/-- A mask of ones cuts its field out. -/
theorem and_place_allOnes (w : BitVec n) (start : Nat) :
    w &&& place n start (allOnes l) = place n start (w.extractLsb' start l) := by
  apply eq_of_getLsbD_eq
  intro i hi
  rw [getLsbD_and, getLsbD_place, getLsbD_place, getLsbD_allOnes, getLsbD_extractLsb']
  by_cases hs : start ≤ i
  · have hadd : start + (i - start) = i := by omega
    simp [hi, hs, hadd, Bool.and_comm]
  · simp [hs]

/-- A test against a mask is a test of the field under it. -/
theorem and_eq_iff_field {w mask value : BitVec n} {start : Nat} {v : BitVec l}
    (hmask : mask = place n start (allOnes l)) (hvalue : value = place n start v)
    (hfits : start + l ≤ n) : w &&& mask = value ↔ w.extractLsb' start l = v := by
  rw [hmask, hvalue, and_place_allOnes]
  refine ⟨fun h => ?_, fun h => by rw [h]⟩
  -- read the field on both sides
  have hfield := congrArg (extractLsb' start l) h
  rwa [extractLsb'_place_self start _ hfits, extractLsb'_place_self start _ hfits] at hfield

/-- A test against a mask with two fields is a test of each. -/
theorem and_eq_iff_fields {w mask value : BitVec n} {s t : Nat} {u : BitVec l} {v : BitVec k}
    (hmask : mask = place n s (allOnes l) ||| place n t (allOnes k))
    (hvalue : value = place n s u ||| place n t v) (hs : s + l ≤ n) (ht : t + k ≤ n)
    (hdisjoint : s + l ≤ t ∨ t + k ≤ s) :
    w &&& mask = value ↔ w.extractLsb' s l = u ∧ w.extractLsb' t k = v := by
  -- the mask selects the two fields at once
  have hand : w &&& mask = place n s (w.extractLsb' s l) ||| place n t (w.extractLsb' t k) := by
    rw [hmask, ← and_place_allOnes, ← and_place_allOnes]
    apply eq_of_getLsbD_eq
    intro i _
    simp only [getLsbD_and, getLsbD_or, Bool.and_or_distrib_left]
  -- neither field reaches into the other
  have hfields : ∀ (a : BitVec l) (b : BitVec k),
      (place n s a ||| place n t b).extractLsb' s l = a ∧
        (place n s a ||| place n t b).extractLsb' t k = b := by
    intro a b
    constructor
    · rw [extractLsb'_or, extractLsb'_place_self s a hs,
        extractLsb'_place_of_disjoint b hdisjoint.symm, BitVec.or_zero]
    · rw [extractLsb'_or, extractLsb'_place_self t b ht,
        extractLsb'_place_of_disjoint a hdisjoint, BitVec.zero_or]
  rw [hand, hvalue]
  constructor
  · intro h
    have hu := congrArg (extractLsb' s l) h
    have hv := congrArg (extractLsb' t k) h
    rw [(hfields _ _).1, (hfields _ _).1] at hu
    rw [(hfields _ _).2, (hfields _ _).2] at hv
    exact ⟨hu, hv⟩
  · rintro ⟨rfl, rfl⟩
    rfl

/-- Two fields that overlap agree on the bits that they share. -/
theorem fields_conflict {w : BitVec n} {s t : Nat} {u : BitVec l} {v : BitVec k}
    (hu : w.extractLsb' s l = u) (hv : w.extractLsb' t k = v) :
    ¬ ∃ i < l, ∃ j < k, s + i = t + j ∧ u.getLsbD i ≠ v.getLsbD j := by
  rintro ⟨i, hi, j, hj, hbit, hne⟩
  rw [← hu, ← hv, getLsbD_extractLsb', getLsbD_extractLsb', hbit] at hne
  simp [hi, hj] at hne

/-! ## Shifts with masks -/

/-- `(w >> start) & mask` reads a field. -/
theorem ushiftRight_and_mask {mask : BitVec n} (w : BitVec n) (start : Nat)
    (hmask : mask = (allOnes l).setWidth n) :
    (w >>> start) &&& mask = (w.extractLsb' start l).setWidth n := by
  apply eq_of_getLsbD_eq
  intro i hi
  rw [hmask]
  simp only [getLsbD_and, getLsbD_ushiftRight, getLsbD_setWidth, getLsbD_allOnes,
    getLsbD_extractLsb', hi, decide_true, Bool.true_and]
  exact Bool.and_comm _ _

/-- `(v & mask) << start` places a field. -/
theorem and_mask_shiftLeft {mask : BitVec n} (v : BitVec n) (start : Nat)
    (hmask : mask = (allOnes l).setWidth n) :
    (v &&& mask) <<< start = place n start (v.setWidth l) := by
  apply eq_of_getLsbD_eq
  intro i hi
  have hsub : i - start < n := by omega
  rw [getLsbD_place, hmask]
  simp only [getLsbD_shiftLeft, getLsbD_and, getLsbD_setWidth, getLsbD_allOnes, hi, hsub,
    decide_true, Bool.true_and]
  -- below `start` both sides are zero
  by_cases hs : start ≤ i
  · simp [hs, Nat.not_lt.mpr hs, Bool.and_comm]
  · simp [hs, Nat.lt_of_not_le hs]

/-! ## Sign extension -/

/-- Filling the high bits of a negative number with ones extends its sign. -/
theorem signExtend_eq_or {ones : BitVec n} (x : BitVec l)
    (hones : ∀ i < n, ones.getLsbD i = decide (l - 1 ≤ i)) :
    (if x.msb then ones ||| x.setWidth n else x.setWidth n) = x.signExtend n := by
  cases hmsb : x.msb with
  | false => exact (signExtend_eq_setWidth_of_msb_false hmsb).symm
  | true =>
      apply eq_of_getLsbD_eq
      intro i hi
      rw [if_pos rfl, getLsbD_or, hones i hi, getLsbD_setWidth, getLsbD_signExtend, hmsb]
      by_cases hlow : i < l
      · -- the only bit that both sides set is the sign
        by_cases hlast : l - 1 ≤ i
        · have hsign : x.getLsbD i = true := by
            have heq : i = l - 1 := by omega
            rw [heq, ← msb_eq_getLsbD_last, hmsb]
          simp [hi, hlow, hlast, hsign]
        · simp [hi, hlow, hlast]
      · have hlast : l - 1 ≤ i := by omega
        simp [hi, hlow, hlast]

/-! ## Signed values -/

theorem toInt_ofNat_of_lt {m : Nat} (h : m < 2 ^ (n - 1)) : (BitVec.ofNat n m).toInt = m := by
  have hdouble : 2 * m < 2 ^ n := by
    cases n with
    | zero =>
        obtain rfl : m = 0 := Nat.lt_one_iff.mp h
        decide
    | succ k =>
        rw [Nat.add_sub_cancel] at h
        rw [Nat.pow_succ]
        omega
  have hm : m < 2 ^ n := by omega
  rw [BitVec.toInt_eq_toNat_of_lt]
  · rw [BitVec.toNat_ofNat, Nat.mod_eq_of_lt hm]
  · rw [BitVec.toNat_ofNat, Nat.mod_eq_of_lt hm]
    exact hdouble

theorem toInt_bounds (v : BitVec n) :
    -((2 ^ (n - 1) : Nat) : Int) ≤ v.toInt ∧ v.toInt < (2 ^ (n - 1) : Nat) := by
  have hlow : -2 ^ n ≤ 2 * v.toInt := BitVec.le_two_mul_toInt
  have hhigh : 2 * v.toInt < 2 ^ n := BitVec.two_mul_toInt_lt
  have hdouble : 2 ^ n ≤ 2 * 2 ^ (n - 1) := by
    cases n with
    | zero => decide
    | succ k => rw [Nat.add_sub_cancel, Nat.pow_succ, Nat.mul_comm]
  have hcast : (2 : Int) ^ n ≤ 2 * (2 ^ (n - 1) : Nat) := by exact_mod_cast hdouble
  omega

end Lib
end KnShim
