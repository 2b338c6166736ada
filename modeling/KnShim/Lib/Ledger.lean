import KnShim.Lib.Fallible
import Mathlib.Logic.Function.Basic

/-!
# Ledger — blocks of memory that are taken and given back

Pointers are numbers, and a block that was freed stays in its place as `none`.  So a use after a
`free`, and a second `free`, are faults.  `Ledger.live` is the map of the blocks that are there: what
a component owns is stated by an equation about it, which says both that nothing else was freed and
that nothing leaked.
-/

namespace KnShim
namespace Lib

abbrev Ledger (β : Type) : Type := List (Option β)

namespace Ledger

variable {β : Type} {h : Ledger β} {p : Nat} {b : β}

/-- A `malloc` that succeeds, and what is put into its block. -/
def alloc (h : Ledger β) (b : β) : Ledger β × Nat := (h ++ [some b], h.length)

/-- The block behind a pointer. -/
def deref (h : Ledger β) (p : Nat) : Fallible β :=
  match (h[p]?).join with
  | some b => .ok b
  | none => .error .outOfBounds

/-- A block gets a new content. -/
def store (h : Ledger β) (p : Nat) (b : β) : Fallible (Ledger β) := do
  let _ ← h.deref p
  return h.set p (some b)

/-- `free`. -/
def free (h : Ledger β) (p : Nat) : Fallible (Ledger β) := do
  let _ ← h.deref p
  return h.set p none

/-- The blocks that are there. -/
def live (h : Ledger β) : Nat → Option β := fun p => (h[p]?).join

@[simp] theorem live_nil : live ([] : Ledger β) = fun _ => none := rfl

theorem live_length (h : Ledger β) : h.live h.length = none := by
  simp [live]

@[simp] theorem live_alloc (h : Ledger β) (b : β) :
    (h.alloc b).1.live = Function.update h.live h.length (some b) := by
  funext p
  by_cases hp : p = h.length
  · subst hp
    simp [live, alloc]
  · rw [Function.update_of_ne hp]
    by_cases hlt : p < h.length
    · simp [live, alloc, List.getElem?_append_left hlt]
    · have hnew : (h ++ [some b])[p]? = none := by
        rw [List.getElem?_eq_none_iff, List.length_append, List.length_singleton]
        omega
      have hold : h[p]? = none := by
        rw [List.getElem?_eq_none_iff]
        omega
      rw [live, live, alloc, hnew, hold]

theorem deref_of_live (hlive : h.live p = some b) : h.deref p = .ok b := by
  have hjoin : (h[p]?).join = some b := hlive
  rw [deref, hjoin]

theorem live_set (hlive : h.live p = some b) (b' : Option β) :
    Ledger.live (h.set p b') = Function.update h.live p b' := by
  have hlt : p < h.length := by
    by_contra hge
    simp [live, List.getElem?_eq_none (Nat.le_of_not_lt hge)] at hlive
  funext q
  by_cases hq : q = p
  · subst hq
    simp [live, hlt]
  · rw [Function.update_of_ne hq]
    simp [live, List.getElem?_set_ne (Ne.symm hq)]

theorem store_of_live (hlive : h.live p = some b) (b' : β) :
    ∃ h', h.store p b' = .ok h' ∧ h'.live = Function.update h.live p (some b') :=
  ⟨_, by rw [store, deref_of_live hlive]; rfl, live_set hlive (some b')⟩

theorem free_of_live (hlive : h.live p = some b) :
    ∃ h', h.free p = .ok h' ∧ h'.live = Function.update h.live p none :=
  ⟨_, by rw [free, deref_of_live hlive]; rfl, live_set hlive none⟩

/-- A block that is taken and given back leaves what was there. -/
theorem free_alloc (h : Ledger β) (b : β) :
    ∃ h', (h.alloc b).1.free h.length = .ok h' ∧ h'.live = h.live := by
  have hlive : (h.alloc b).1.live h.length = some b := by simp
  rcases free_of_live hlive with ⟨h', hfree, hlive'⟩
  refine ⟨h', hfree, ?_⟩
  rw [hlive', live_alloc, Function.update_idem, ← live_length h, Function.update_eq_self]

end Ledger

end Lib
end KnShim
