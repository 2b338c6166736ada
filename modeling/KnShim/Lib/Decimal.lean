import KnShim.Lib.Fallible
import Mathlib.Data.Nat.Digits.Lemmas

/-!
# Decimal — numbers as text

`print` is what `%d` writes, `strtol` what `strtol` and `atoi` make of a text: blanks, a sign, and
digits up to the first byte that is none.
-/

namespace KnShim
namespace Lib
namespace Decimal

/-- The digit `d`. -/
def digit (d : Nat) : UInt8 := UInt8.ofNat (48 + d)

def IsDigit (b : UInt8) : Prop := 48 ≤ b.toNat ∧ b.toNat ≤ 57

instance (b : UInt8) : Decidable (IsDigit b) := inferInstanceAs (Decidable (_ ∧ _))

/-- The digits of a number. -/
def printNat (n : Nat) : Bytes :=
  if n = 0 then [digit 0] else (Nat.digits 10 n).reverse.map digit

/-- `%d`. -/
def print (z : Int) : Bytes := if z < 0 then 45 :: printNat z.natAbs else printNat z.natAbs

/-- The number that the digits before the first other byte go on to spell. -/
def scan (acc : Nat) : Bytes → Nat
  | [] => acc
  | b :: bs => if IsDigit b then scan (10 * acc + (b.toNat - 48)) bs else acc

/-- `isspace`. -/
def IsSpace (b : UInt8) : Prop := b = 32 ∨ (9 ≤ b.toNat ∧ b.toNat ≤ 13)

instance (b : UInt8) : Decidable (IsSpace b) := inferInstanceAs (Decidable (_ ∨ _))

/-- `strtol` in base 10, before it is limited to a `long`. -/
def strtol (bs : Bytes) : Int :=
  match bs.dropWhile (fun b => IsSpace b) with
  | [] => 0
  | b :: bs => if b = 45 then -(scan 0 bs : Int) else if b = 43 then scan 0 bs else scan 0 (b :: bs)

/-! ## Digits -/

theorem toNat_digit {d : Nat} (h : d < 10) : (digit d).toNat = 48 + d := by
  rw [digit, UInt8.toNat_ofNat', Nat.mod_eq_of_lt (by omega)]

theorem isDigit_digit {d : Nat} (h : d < 10) : IsDigit (digit d) := by
  rw [IsDigit, toNat_digit h]
  omega

theorem isDigit_of_mem_printNat {n : Nat} {b : UInt8} (h : b ∈ printNat n) : IsDigit b := by
  by_cases hn : n = 0
  · simp only [printNat, hn, if_true, List.mem_singleton] at h
    rw [h]
    exact isDigit_digit (by decide)
  · simp only [printNat, hn, if_false, List.mem_map, List.mem_reverse] at h
    rcases h with ⟨d, hd, rfl⟩
    exact isDigit_digit (Nat.digits_lt_base (by decide) hd)

/-- A digit is no byte below `0`. -/
theorem not_mem_printNat {n : Nat} {b : UInt8} (hb : b.toNat < 48) : b ∉ printNat n :=
  fun hmem => Nat.not_le.mpr hb (isDigit_of_mem_printNat hmem).1

theorem printNat_ne_nil (n : Nat) : printNat n ≠ [] := by
  by_cases hn : n = 0
  · simp [printNat, hn]
  · simp [printNat, hn, Nat.digits_ne_nil_iff_ne_zero.mpr hn]

theorem printNat_length_le {n k : Nat} (hk : 0 < k) (h : n < 10 ^ k) : (printNat n).length ≤ k := by
  by_cases hn : n = 0
  · simpa [printNat, hn, Nat.one_le_iff_ne_zero, Nat.pos_iff_ne_zero] using hk
  · simpa [printNat, hn] using (Nat.digits_length_le_iff (by decide) n).mpr h

/-! ## Reading what was printed -/

theorem scan_append {xs : Bytes} (hxs : ∀ b ∈ xs, IsDigit b) (acc : Nat) (ys : Bytes) :
    scan acc (xs ++ ys) = scan (scan acc xs) ys := by
  induction xs generalizing acc with
  | nil => rfl
  | cons b xs ih =>
      have hb : IsDigit b := hxs b List.mem_cons_self
      simp only [List.cons_append, scan, if_pos hb]
      exact ih (fun c hc => hxs c (List.mem_cons_of_mem b hc)) _

theorem scan_digits (n : Nat) : scan 0 ((Nat.digits 10 n).reverse.map digit) = n := by
  induction n using Nat.strong_induction_on with
  | _ n ih =>
      by_cases hn : n = 0
      · simp [hn, scan]
      · -- the last digit comes behind those of the tenth part
        have hlast : n % 10 < 10 := Nat.mod_lt n (by decide)
        have hdigits : ∀ b ∈ (Nat.digits 10 (n / 10)).reverse.map digit, IsDigit b := by
          intro b hb
          rcases List.mem_map.mp hb with ⟨d, hd, rfl⟩
          exact isDigit_digit (Nat.digits_lt_base (by decide) (List.mem_reverse.mp hd))
        rw [Nat.digits_def' (by decide) (Nat.pos_of_ne_zero hn), List.reverse_cons, List.map_append,
          scan_append hdigits, ih (n / 10) (Nat.div_lt_self (Nat.pos_of_ne_zero hn) (by decide))]
        simp only [List.map_cons, List.map_nil, scan, if_pos (isDigit_digit hlast),
          toNat_digit hlast]
        omega

theorem scan_printNat (n : Nat) : scan 0 (printNat n) = n := by
  by_cases hn : n = 0
  · subst hn
    rfl
  · rw [printNat, if_neg hn]
    exact scan_digits n

/-- `strtol` reads the number that was printed. -/
theorem strtol_printNat (n : Nat) : strtol (printNat n) = n := by
  cases hbs : printNat n with
  | nil => exact absurd hbs (printNat_ne_nil n)
  | cons b bs =>
      have hb : IsDigit b := isDigit_of_mem_printNat (hbs ▸ List.mem_cons_self)
      have hrange : 48 ≤ b.toNat ∧ b.toNat ≤ 57 := hb
      have hspace : ¬ IsSpace b := by
        rintro (rfl | h)
        · revert hrange
          decide
        · omega
      have hminus : b ≠ 45 := by
        rintro rfl
        revert hrange
        decide
      have hplus : b ≠ 43 := by
        rintro rfl
        revert hrange
        decide
      have hdrop : (b :: bs).dropWhile (fun b => IsSpace b) = b :: bs := by simp [hspace]
      have hscan := scan_printNat n
      rw [hbs] at hscan
      simp [strtol, hdrop, hminus, hplus, hscan]

end Decimal

end Lib
end KnShim
