import Mathlib.Data.List.Basic

/-!
# Lua.Frame — the stack of a C function that a script has called

The arguments are in the slots 1, 2, … and what the function pushes comes behind them.  The number
that the function returns says how many of the topmost values it hands over; nothing stops it from
handing over its own arguments.
-/

namespace KnShim
namespace Lua

/-- The slots from the bottom to the top.  The first `nargs` are the arguments. -/
structure Frame (α : Type) where
  slots : List α
  nargs : Nat

namespace Frame

variable {α : Type} {f : Frame α} {index : Nat} {v : α}

/-- The frame of a function that has just been called. -/
def enter (args : List α) : Frame α := ⟨args, args.length⟩

/-- The value at a positive index.  There is none at 0 and none above the top. -/
def get? (f : Frame α) (index : Nat) : Option α :=
  if index = 0 then none else f.slots[index - 1]?

/-- The value at the index `-back`. -/
def fromTop? (f : Frame α) (back : Nat) : Option α := f.slots.reverse[back - 1]?

def set (f : Frame α) (index : Nat) (v : α) : Frame α :=
  { f with slots := f.slots.set (index - 1) v }

def push (f : Frame α) (v : α) : Frame α := { f with slots := f.slots ++ [v] }

def pop (f : Frame α) (n : Nat) : Frame α :=
  { f with slots := f.slots.take (f.slots.length - n) }

/-- What a function that returns `n` hands over. -/
def returned (f : Frame α) (n : Nat) : List α := f.slots.drop (f.slots.length - n)

/-- The function hands over one value, `v`, and it has pushed that value itself. -/
structure Returns (f : Frame α) (n : Nat) (v : α) : Prop where
  one : n = 1
  pushed : f.nargs + n ≤ f.slots.length
  value : f.returned n = [v]

theorem get?_set_self (h : f.get? index = some v) (w : α) :
    (f.set index w).get? index = some w := by
  rw [get?] at h ⊢
  split_ifs at h ⊢ with h0
  simp [set, (List.getElem?_eq_some_iff.mp h).1]

@[simp] theorem set_set (v w : α) : (f.set index v).set index w = f.set index w := by
  simp [set]

/-- Pushing leaves the values below. -/
theorem get?_push (h : f.get? index = some v) (w : α) : (f.push w).get? index = some v := by
  rw [get?] at h ⊢
  split_ifs at h ⊢ with h0
  exact (List.getElem?_append_left (List.getElem?_eq_some_iff.mp h).1).trans h

@[simp] theorem fromTop?_push_one (v : α) : (f.push v).fromTop? 1 = some v := by
  simp [fromTop?, push]

@[simp] theorem fromTop?_push_two (v w : α) : ((f.push v).push w).fromTop? 2 = some v := by
  simp [fromTop?, push]

@[simp] theorem pop_push_two (v w : α) : ((f.push v).push w).pop 2 = f := by
  simp [push, pop]

/-- A function that pushes a value on top of its arguments returns it. -/
theorem returns_push (h : f.nargs = f.slots.length) (v : α) : (f.push v).Returns 1 v where
  one := rfl
  pushed := by simp [push, h]
  value := by simp [returned, push]

/-- A function that has pushed nothing returns nothing of its own. -/
theorem not_returns (h : f.nargs = f.slots.length) (n : Nat) (v : α) : ¬ f.Returns n v := by
  rintro ⟨rfl, hpushed, _⟩
  rw [h] at hpushed
  exact absurd hpushed (Nat.not_succ_le_self _)

end Frame

end Lua
end KnShim
