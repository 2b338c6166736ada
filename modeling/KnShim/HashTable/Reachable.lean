import KnShim.HashTable.Calls

/-!
# Reachable — the layout of every dictionary that calls can build

`Dict.Layout` says on the arrays of the C code what `WellFormed` says on `ProbeIndex`: capacity and
load, the bijection between the slots in use and the pairs, the keys, and the walk to each pair.
-/

namespace KnShim
namespace HashTable

open Lib ProbeIndex

namespace Dict

/-- The slots that are neither `KH_HASH_EMPTY` nor `KH_HASH_DELETED`. -/
def slotsInUse (d : Dict) : Set Nat :=
  {p | ∃ slot, d.slots[p]? = some slot ∧ slot ≠ hashEmpty ∧ slot ≠ hashDeleted}

/-- The index that slot `p` holds. -/
def slotIndex (d : Dict) (p : Nat) : Nat := (d.slots[p]?.map UInt32.toNat).getD 0

/-- The slot that the circular walk from the home of `key` visits at its `n`-th step. -/
def walkSlot (d : Dict) (key : Blob) (n : Nat) : Option UInt32 :=
  d.slots[((key.hash.toNat &&& (d.dataAlloced - 1)) + n) % d.dataAlloced]?

structure Layout (d : Dict) : Prop where
  alloced : d.dataAlloced = 0 ∨ 8 ≤ d.dataAlloced ∧ ∃ k, d.dataAlloced = 2 ^ k
  load_le : d.dataCount ≤ d.dataAlloced / 2 + d.dataAlloced / 8
  slots : Set.BijOn d.slotIndex d.slotsInUse {i | i < d.dataCount}
  keyed : ∀ i < d.dataCount, ∃ key, keyOf d.pairs i = some key
  distinct : ∀ i j key key', i < d.dataCount → j < d.dataCount → i ≠ j →
    keyOf d.pairs i = some key → keyOf d.pairs j = some key' → key.data ≠ key'.data
  walk : ∀ i key, i < d.dataCount → keyOf d.pairs i = some key →
    ∃ n < d.dataAlloced,
      (∃ slot, d.walkSlot key n = some slot ∧ slot ≠ hashEmpty ∧ slot ≠ hashDeleted ∧
        slot.toNat = i) ∧
      ∀ m < n, d.walkSlot key m ≠ some hashEmpty

variable {d : Dict}

theorem tableOf_eq_full {slots : List UInt32} {p i : Nat} :
    tableOf slots p = .full i ↔
      ∃ slot, slots[p]? = some slot ∧ slot ≠ hashEmpty ∧ slot ≠ hashDeleted ∧
        slot.toNat = i := by
  cases h : slots[p]? with
  | none => simp [tableOf, h]
  | some slot => simp [tableOf_of_getElem? h, decodeSlot_eq_full]

theorem Safe.slotsInUse_lt (h : d.Safe) {p : Nat} (hp : p ∈ d.slotsInUse) :
    p < d.dataAlloced := by
  rcases hp with ⟨slot, hslot, _⟩
  rw [← h.slots_length]
  exact (List.getElem?_eq_some_iff.mp hslot).1

theorem tableOf_of_slotsInUse {p : Nat} (hp : p ∈ d.slotsInUse) :
    tableOf d.slots p = .full (d.slotIndex p) := by
  rcases hp with ⟨slot, hslot, he, hd⟩
  exact tableOf_eq_full.mpr ⟨slot, hslot, he, hd, by simp [slotIndex, hslot]⟩

theorem WellFormed.slots_bijOn (h : d.WellFormed) :
    Set.BijOn d.slotIndex d.slotsInUse {i | i < d.dataCount} := by
  -- into the indices, injective, onto the indices
  refine ⟨?_, ?_, ?_⟩
  · intro p hp
    exact h.bounded p _ (tableOf_of_slotsInUse hp)
  · intro p hp q hq hpq
    have hq' := tableOf_of_slotsInUse hq
    rw [← hpq] at hq'
    exact h.indexed.unique p q _ (h.slotsInUse_lt hp) (h.slotsInUse_lt hq)
      (tableOf_of_slotsInUse hp) hq'
  · intro i hi
    rcases h.indexed.existsUnique hi with ⟨p, ⟨_, hfull⟩, _⟩
    rcases tableOf_eq_full.mp hfull with ⟨slot, hslot, he, hd, hidx⟩
    exact ⟨p, ⟨slot, hslot, he, hd⟩, by simp [slotIndex, hslot, hidx]⟩

/-- Masking the hash and walking around the table is the walk of `ProbeIndex`. -/
theorem Safe.walkSlot_eq (h : d.Safe) (hpos : d.dataAlloced ≠ 0) (key : Blob) (n : Nat) :
    d.walkSlot key n = d.slots[probe d.dataAlloced key.hash.toNat n]? := by
  rcases h.alloced with h0 | ⟨k, _, hk⟩
  · exact absurd h0 hpos
  · rw [walkSlot, hk, and_mask, Nat.mod_add_mod]
    rfl

theorem WellFormed.layout (h : d.WellFormed) : d.Layout where
  alloced := by
    rcases h.alloced with h0 | ⟨k, hk, hN⟩
    · exact Or.inl h0
    · refine Or.inr ⟨?_, k, hN⟩
      calc
        8 = 2 ^ 3 := rfl
        _ ≤ 2 ^ k := Nat.pow_le_pow_right (by decide) hk
        _ = d.dataAlloced := hN.symm
  load_le := h.load_le
  slots := h.slots_bijOn
  keyed := h.keyed
  distinct := by
    intro i j key key' hi hj hij hkey hkey' hdata
    exact hij (h.distinct i j key key' hi hj hkey hkey' hdata)
  walk := by
    intro i key hi hkey
    rcases h.indexed.reach i hi with ⟨n, hn, hfull, hway⟩
    -- a walk of at least one step needs a slot
    have hpos : d.dataAlloced ≠ 0 := by omega
    rw [hashOf_of_key hkey] at hfull hway
    refine ⟨n, hn, ?_, ?_⟩
    · rw [h.toSafe.walkSlot_eq hpos]
      exact tableOf_eq_full.mp hfull
    · intro m hm hempty
      rw [h.toSafe.walkSlot_eq hpos] at hempty
      exact hway m hm ((tableOf_of_getElem? hempty).trans (decodeSlot_eq_empty.mpr rfl))

end Dict

/-- Every sequence of calls, with any failures of the two allocations of `KH_ResizeDict`, leads to
a dictionary with this layout. -/
theorem dict_run_layout (calls : List DictCall) (hlimit : ∀ c ∈ calls, c.Limited) :
    ∃ d answers, dictMachine.run calls = .ok (d, answers) ∧ d.Layout := by
  rcases Machine.runFrom_total (M := dictMachine)
    (fun d c hd hc => dictStep_wellFormed hd c hc) calls createDict createDict_wellFormed
    hlimit with ⟨d, answers, hrun, hwf⟩
  exact ⟨d, answers, hrun, hwf.layout⟩

/-- A set of a key of one byte. -/
def Sample.setByte (alloc : TableAlloc) (n : UInt8) : DictCall :=
  .set alloc (.ofBytes n.toNat [n]) (some (.ofBytes (100 + n.toNat) [n, n]))

/-- Seven keys whose walks begin at one slot of eight: the first set is refused, one key is deleted
between the others, and the growth is refused once before it is granted. -/
def Sample.collidingCalls : List DictCall :=
  [Sample.setByte (.upTo 0) 1, Sample.setByte (.upTo 8) 1, Sample.setByte (.upTo 8) 9,
    Sample.setByte (.upTo 8) 17, Sample.setByte (.upTo 8) 25, .delete (.ofBytes 0 [9]),
    Sample.setByte (.upTo 8) 33, Sample.setByte (.upTo 8) 17, Sample.setByte (.upTo 8) 41,
    Sample.setByte (.upTo 8) 49, Sample.setByte (.upTo 16) 49, .get (.ofBytes 0 [41])]

theorem Sample.setByte_limited {limit : Nat} (h : limit ≤ 2 ^ 32) (n : UInt8) :
    (Sample.setByte (.upTo limit) n).Limited := fun _ => TableAlloc.upTo_limited h

/-- The six keys that are left lie in a table of sixteen slots. -/
theorem dict_run_layout_delete :
    (∃ d answers, dictMachine.run Sample.collidingCalls = .ok (d, answers) ∧ d.Layout) ∧
      (dictMachine.run Sample.collidingCalls).map (fun r => (r.1.dataAlloced, r.1.dataCount)) =
        .ok (16, 6) := by
  constructor
  · refine dict_run_layout Sample.collidingCalls fun c hc => ?_
    simp only [Sample.collidingCalls, List.mem_cons, List.not_mem_nil, or_false] at hc
    rcases hc with rfl | rfl | rfl | rfl | rfl | rfl | rfl | rfl | rfl | rfl | rfl | rfl
    all_goals first | trivial | exact Sample.setByte_limited (by decide) _
  · decide +kernel

end HashTable
end KnShim
