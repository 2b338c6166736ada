import Mathlib.Data.Nat.Basic
import Mathlib.Logic.Basic

/-!
# Condition — the condition codes of the ARM architectures

A condition has four bits.  The upper three choose a test of the flags and the lowest one turns the
result around, except that the test `111` is passed always, and its opposite `1111` too.
-/

namespace KnShim
namespace Lib

/-- The flags of the processor state. -/
structure Flags where
  n : Bool
  z : Bool
  c : Bool
  v : Bool
  deriving DecidableEq, Repr

namespace Condition

/-- The tests: `EQ`, `CS`, `MI`, `VS`, `HI`, `GE`, `GT` and `AL`. -/
def passes (flags : Flags) : BitVec 3 → Bool
  | 0b000#3 => flags.z
  | 0b001#3 => flags.c
  | 0b010#3 => flags.n
  | 0b011#3 => flags.v
  | 0b100#3 => flags.c && !flags.z
  | 0b101#3 => flags.n == flags.v
  | 0b110#3 => flags.n == flags.v && !flags.z
  | _ => true

/-- `ConditionHolds` of the architecture manuals. -/
def holds (flags : Flags) (cond : BitVec 4) : Bool :=
  let result := passes flags (cond.extractLsb' 1 3)
  if cond.extractLsb' 0 1 = 1#1 ∧ cond ≠ 0b1111#4 then !result else result

/-- A condition that looks at no flag. -/
def Always (cond : BitVec 4) : Prop := cond.extractLsb' 1 3 = 0b111#3

instance (cond : BitVec 4) : Decidable (Always cond) := inferInstanceAs (Decidable (_ = _))

/-- The condition with its lowest bit flipped. -/
def invert (cond : BitVec 4) : BitVec 4 := cond ^^^ 1#4

theorem invert_upper : ∀ cond, (invert cond).extractLsb' 1 3 = cond.extractLsb' 1 3 := by
  decide

theorem invert_lowest :
    ∀ cond, (invert cond).extractLsb' 0 1 = 1#1 ↔ ¬ cond.extractLsb' 0 1 = 1#1 := by
  decide

@[simp] theorem always_invert (cond : BitVec 4) : Always (invert cond) ↔ Always cond := by
  rw [Always, Always, invert_upper]

theorem ne_of_not_always {cond : BitVec 4} (h : ¬ Always cond) : cond ≠ 0b1111#4 := by
  rintro rfl
  exact h (by decide)

/-- The lowest bit makes a condition its opposite. -/
theorem holds_invert {cond : BitVec 4} (flags : Flags) (h : ¬ Always cond) :
    holds flags (invert cond) = !holds flags cond := by
  have hne := ne_of_not_always h
  have hne' := ne_of_not_always (mt (always_invert cond).mp h)
  rw [holds, holds, invert_upper]
  by_cases hbit : cond.extractLsb' 0 1 = 1#1
  · have hbit' : ¬ (invert cond).extractLsb' 0 1 = 1#1 :=
      fun h' => (invert_lowest cond).mp h' hbit
    simp [hbit, hbit', hne]
  · have hbit' : (invert cond).extractLsb' 0 1 = 1#1 := (invert_lowest cond).mpr hbit
    simp [hbit, hbit', hne']

/-- Of `1110` and `1111` neither is the opposite of the other. -/
theorem holds_of_always {cond : BitVec 4} (flags : Flags) (h : Always cond) :
    holds flags cond = true := by
  have hpasses : passes flags (cond.extractLsb' 1 3) = true := by
    rw [show cond.extractLsb' 1 3 = 0b111#3 from h]
    rfl
  have hcases : ∀ cond : BitVec 4, Always cond → ¬ cond.extractLsb' 0 1 = 1#1 ∨ cond = 0b1111#4 := by
    decide
  rw [holds, hpasses]
  rcases hcases cond h with hbit | hall
  · simp [hbit]
  · simp [hall]

end Condition

end Lib
end KnShim
