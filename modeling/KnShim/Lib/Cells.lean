import KnShim.Lib.Memory

/-!
# Cells — numbers in memory, and what a write leaves alone

`Space.SameOff touched s s'` says that two memories differ at most at the addresses in `touched`.
Writes compose to such a relation, and whatever is read elsewhere is read as before.
-/

namespace KnShim
namespace Lib
namespace Space

variable {w : Nat}

/-- The same memory but for the bytes at the addresses in `touched`. -/
structure SameOff (touched : BitVec w → Prop) (s s' : Space w) : Prop where
  mapped : s'.mapped = s.mapped
  bytes : ∀ p, ¬ touched p → s'.bytes p = s.bytes p

variable {touched touched' : BitVec w → Prop} {s s' s'' : Space w} {a : BitVec w} {n : Nat}

namespace SameOff

theorem refl (touched : BitVec w → Prop) (s : Space w) : SameOff touched s s where
  mapped := rfl
  bytes := fun _ _ => rfl

theorem trans (h : SameOff touched s s') (h' : SameOff touched s' s'') :
    SameOff touched s s'' where
  mapped := h'.mapped.trans h.mapped
  bytes := fun p hp => (h'.bytes p hp).trans (h.bytes p hp)

theorem mono (h : SameOff touched s s') (himp : ∀ p, touched p → touched' p) :
    SameOff touched' s s' where
  mapped := h.mapped
  bytes := fun p hp => h.bytes p (fun ht => hp (himp p ht))

theorem covers (h : SameOff touched s s') (a : BitVec w) (n : Nat) :
    s'.covers a n = s.covers a n := by
  rw [Space.covers, Space.covers, h.mapped]

/-- What lies elsewhere is read as before. -/
theorem load (h : SameOff touched s s') (hn : n ≤ 2 ^ w)
    (hoff : ∀ p, Memory.InRange a n p → ¬ touched p) : s'.load a n = s.load a n := by
  have hread : s'.bytes.read a n = s.bytes.read a n :=
    Memory.read_congr hn (fun p hp => h.bytes p (hoff p hp))
  rw [Space.load, Space.load, h.covers, Memory.load, Memory.load, hread]

end SameOff

/-- A number is stored where there is memory: it is read back, and nothing else has changed. -/
theorem write_number (hcovers : s.covers a n = true) (hn : n ≤ 2 ^ w) (v : BitVec (8 * n)) :
    ∃ s', s.write a (toLE n v.toNat) = .ok s' ∧ s'.load a n = .ok v ∧
      SameOff (Memory.InRange a n) s s' := by
  have hlen : (toLE n v.toNat).length = n := toLE_length _ _
  refine ⟨_, write_of_covers (by rwa [hlen]), ?_, rfl, fun p hp => ?_⟩
  · have hcovers' : ({ s with bytes := s.bytes.write a (toLE n v.toNat) } : Space w).covers a n =
        true := hcovers
    rw [Space.load, if_pos hcovers', s.bytes.load_write_toLE a v hn]
  · exact s.bytes.write_of_not_inRange (by rwa [hlen])

end Space
end Lib
end KnShim
