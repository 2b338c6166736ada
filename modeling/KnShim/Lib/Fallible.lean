import Mathlib.Data.List.Basic

/-!
# Fallible — C computations that may go wrong

A C function either returns, or leaves defined behaviour, or is killed with its process.  The ways
out are collected in `Fault`; a computation is an `Except Fault` value, so that a theorem which says
that a call is `.ok` also says that none of these happens.

Arrays are lists; `readAt` and `writeAt` are the checked accesses `xs[i]` and `xs[i] = a`.
-/

namespace KnShim
namespace Lib

/-- The ways in which a C computation does not return. -/
inductive Fault where
  | outOfBounds
  | nullDeref
  | uninitialized
  | nonTermination
  | killed
  deriving DecidableEq, Repr

abbrev Fallible (α : Type) : Type := Except Fault α

namespace Fallible

variable {α β : Type}

@[simp] theorem ok_bind (a : α) (f : α → Fallible β) :
    ((Except.ok a : Fallible α) >>= f) = f a := rfl

@[simp] theorem error_bind (e : Fault) (f : α → Fallible β) :
    ((Except.error e : Fallible α) >>= f) = .error e := rfl

@[simp] theorem pure_eq (a : α) : (pure a : Fallible α) = .ok a := rfl

/-- A sequence that returns is made of two computations that return. -/
theorem bind_eq_ok {x : Fallible α} {f : α → Fallible β} {b : β} :
    (x >>= f) = .ok b ↔ ∃ a, x = .ok a ∧ f a = .ok b := by
  cases x with
  | error e => simp
  | ok a => simp

/-- A computation that returns and passes a test, both found by evaluation. -/
theorem exists_ok_of_any {x : Fallible α} {p : α → Bool} (h : x.toOption.any p = true) :
    ∃ a, x = .ok a ∧ p a = true := by
  cases x with
  | error e => simp [Except.toOption] at h
  | ok a => exact ⟨a, rfl, by simpa [Except.toOption] using h⟩

end Fallible

/-! ## Array accesses -/

abbrev Bytes : Type := List UInt8

variable {α : Type}

/-- `xs[i]`. -/
def readAt (xs : List α) (i : Nat) : Fallible α :=
  match xs[i]? with
  | some a => .ok a
  | none => .error .outOfBounds

/-- `xs[i] = a`. -/
def writeAt (xs : List α) (i : Nat) (a : α) : Fallible (List α) :=
  if i < xs.length then .ok (xs.set i a) else .error .outOfBounds

theorem readAt_eq_ok {xs : List α} {i : Nat} {a : α} :
    readAt xs i = .ok a ↔ xs[i]? = some a := by
  unfold readAt
  cases h : xs[i]? with
  | none => simp
  | some b => simp

theorem readAt_of_lt {xs : List α} {i : Nat} (h : i < xs.length) :
    readAt xs i = .ok xs[i] :=
  readAt_eq_ok.mpr (List.getElem?_eq_getElem h)

theorem writeAt_of_lt {xs : List α} {i : Nat} (a : α) (h : i < xs.length) :
    writeAt xs i a = .ok (xs.set i a) := by
  simp [writeAt, h]

end Lib
end KnShim
