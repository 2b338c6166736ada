import KnShim.HashTable.Insert

/-!
# Update — replacing and removing a pair

`KH_DictChange` writes a value where the key stands.  `KH_DictRemove` closes the gap in the pairs
and renumbers the slots; `shiftPairs_eq` and `tableOf_map_fixSlot` say what its two loops do, and
`Sound.retire` keeps the invariant.
-/

namespace KnShim
namespace HashTable

open Lib ProbeIndex

/-! ## `KH_DictChange` -/

/-- Writing a value changes no key. -/
theorem keyOf_set {pairs : List DictPair} {i : Nat} {key : Blob} {old : Option Blob}
    (value : Option Blob) (h : pairs[i]? = some ⟨some key, old⟩) (j : Nat) :
    keyOf (pairs.set i ⟨some key, value⟩) j = keyOf pairs j := by
  by_cases hij : i = j
  · subst hij
    have hlt : i < pairs.length := (List.getElem?_eq_some_iff.mp h).1
    rw [keyOf_of_pair (List.getElem?_set_self hlt), keyOf_of_pair h]
  · simp only [keyOf, List.getElem?_set_ne hij]

namespace Dict

variable {d : Dict}

/-- The dictionary with the value of the pair at `i` replaced. -/
def changed (d : Dict) (i : Nat) (key : Blob) (value : Option Blob) : Dict :=
  { d with pairs := d.pairs.set i ⟨some key, value⟩ }

theorem changed_pair_self {i : Nat} (hi : i < d.pairs.length) (key : Blob)
    (value : Option Blob) : (d.changed i key value).pairs[i]? = some ⟨some key, value⟩ :=
  List.getElem?_set_self hi

theorem changed_pair_ne {i j : Nat} (hij : j ≠ i) (key : Blob) (value : Option Blob) :
    (d.changed i key value).pairs[j]? = d.pairs[j]? :=
  List.getElem?_set_ne (Ne.symm hij)

theorem dictChange_eq {i : Nat} {key : Blob} {old : Option Blob} (value : Option Blob)
    (hpair : d.pairs[i]? = some ⟨some key, old⟩) :
    dictChange d i value = .ok (d.changed i key value, old.toList) := by
  have hlt : i < d.pairs.length := (List.getElem?_eq_some_iff.mp hpair).1
  rw [dictChange, readAt_eq_ok.mpr hpair, Fallible.ok_bind, writeAt_of_lt _ hlt]
  rfl

theorem Tidy.changed_tidy (h : d.Tidy) {i : Nat} {key : Blob} {old : Option Blob}
    (value : Option Blob) (hi : i < d.load)
    (hpair : d.pairs[i]? = some ⟨some key, old⟩) : (d.changed i key value).Tidy where
  pairs_length := by
    simp only [changed, List.length_set]
    exact h.pairs_length
  alloced := h.alloced
  load_le := h.load_le
  keyed := by
    intro j hj
    simp only [changed, keyOf_set value hpair]
    exact h.keyed j hj
  spare := by
    intro j hj hin
    -- a pair in use is not behind the load
    have hne : j ≠ i := by
      change d.load ≤ j at hj
      omega
    rw [changed_pair_ne hne]
    exact h.spare j hj hin

theorem Safe.changed_safe (h : d.Safe) {i : Nat} {key : Blob} {old : Option Blob}
    (value : Option Blob) (hi : i < d.dataCount)
    (hpair : d.pairs[i]? = some ⟨some key, old⟩) : (d.changed i key value).Safe :=
  (h.tidy.changed_tidy value (lt_of_lt_of_le hi h.load_le) hpair).safe h.toSlotsSafe

theorem WellFormed.changed_wellFormed (h : d.WellFormed) {i : Nat} {key : Blob}
    {old : Option Blob} (value : Option Blob) (hi : i < d.dataCount)
    (hpair : d.pairs[i]? = some ⟨some key, old⟩) : (d.changed i key value).WellFormed where
  toSafe := h.toSafe.changed_safe value hi hpair
  alloced_le := h.alloced_le
  indexed := h.indexed.congr (fun _ _ => rfl) (fun j _ => by
    simp only [changed, hashOf, keyOf_set value hpair])
  distinct := by
    intro j j' k k' hj hj' hk hk' hdata
    simp only [changed, keyOf_set value hpair] at hk hk'
    exact h.distinct j j' k k' hj hj' hk hk' hdata

end Dict

/-! ## `KH_DictRemove` -/

/-- The move loop moves every pair it visits down by one. -/
theorem shiftPairs_eq :
    ∀ (fuel i : Nat) (pairs : List DictPair), 1 ≤ i → i + fuel ≤ pairs.length →
      ∃ moved, shiftPairs fuel i pairs = .ok moved ∧ moved.length = pairs.length ∧
        ∀ j, moved[j]? = if i ≤ j + 1 ∧ j + 1 < i + fuel then pairs[j + 1]? else pairs[j]? := by
  -- induction on the moves left; `i` is the pair that is moved next
  intro fuel
  induction fuel with
  | zero =>
      intro i pairs _ _
      refine ⟨pairs, rfl, rfl, fun j => ?_⟩
      rw [if_neg (by omega)]
  | succ fuel ih =>
      intro i pairs hi hlen
      have hread : i < pairs.length := by omega
      have hwrite : i - 1 < pairs.length := by omega
      rcases ih (i + 1) (pairs.set (i - 1) pairs[i]) (by omega)
        (by rw [List.length_set]; omega) with ⟨moved, hrun, hmlen, hmoved⟩
      refine ⟨moved, ?_, by rw [hmlen, List.length_set], fun j => ?_⟩
      · rw [shiftPairs, readAt_of_lt hread, Fallible.ok_bind, writeAt_of_lt _ hwrite,
          Fallible.ok_bind, hrun]
      · rw [hmoved j]
        by_cases hj : j = i - 1
        · -- the cell written in this round
          subst hj
          have hidx : i - 1 + 1 = i := by omega
          rw [if_neg (by omega), if_pos (by omega), List.getElem?_set_self hwrite, hidx,
            List.getElem?_eq_getElem hread]
        · rw [List.getElem?_set_ne (Ne.symm hj)]
          -- any other cell: moved later, or never
          by_cases hin : i + 1 ≤ j + 1 ∧ j + 1 < i + 1 + fuel
          · rw [if_pos hin, if_pos (by omega), List.getElem?_set_ne (by omega)]
          · rw [if_neg hin, if_neg (by omega)]

namespace Dict

variable {d : Dict}

/-- The dictionary without the pair at `index`; `pairs` is the array after the moves. -/
def removed (d : Dict) (pairs : List DictPair) (index : Nat) : Dict :=
  ⟨d.slots.map (fixSlot index), pairs, d.dataCount - 1, d.dataAlloced⟩

/-- The array `pairs` is that of `d` with the pair at `index` taken out of the live pairs. -/
def Shifted (d : Dict) (index : Nat) (pairs : List DictPair) : Prop :=
  pairs.length = d.pairs.length ∧
    ∀ j, pairs[j]? = if index ≤ j ∧ j + 1 < d.dataCount then d.pairs[j + 1]? else d.pairs[j]?

theorem Shifted.live {index : Nat} {pairs : List DictPair} (h : d.Shifted index pairs) {j : Nat}
    (hj : j < d.dataCount - 1) : pairs[j]? = d.pairs[if j < index then j else j + 1]? := by
  rw [h.2 j]
  split_ifs <;> first | rfl | omega

theorem Shifted.spare {index : Nat} {pairs : List DictPair} (h : d.Shifted index pairs) {j : Nat}
    (hj : d.dataCount ≤ j) : pairs[j]? = d.pairs[j]? := by
  rw [h.2 j, if_neg (by omega)]

theorem Tidy.removed_tidy (h : d.Tidy) {index : Nat} {pairs : List DictPair}
    (hs : d.Shifted index pairs) : (d.removed pairs index).Tidy where
  pairs_length := hs.1.trans h.pairs_length
  alloced := h.alloced
  load_le := le_trans (Nat.sub_le _ _) h.load_le
  keyed := by
    intro j hj
    change j < d.dataCount - 1 at hj
    have hold : (if j < index then j else j + 1) < d.dataCount := by split_ifs <;> omega
    rcases h.keyed _ hold with ⟨key, hkey⟩
    refine ⟨key, ?_⟩
    rw [← hkey]
    simp only [removed, keyOf, hs.live hj]
  spare := by
    intro j hj hin
    change d.load ≤ j at hj
    have hcount : d.dataCount ≤ j := le_trans h.load_le hj
    change pairs[j]? = _
    rw [hs.spare hcount]
    exact h.spare j hj hin

theorem Safe.removed_safe (h : d.Safe) {index : Nat} {pairs : List DictPair}
    (hi : index < d.dataCount) (hs : d.Shifted index pairs) : (d.removed pairs index).Safe := by
  refine (h.tidy.removed_tidy hs).safe ⟨?_, ?_, ?_⟩
  · simp only [removed, List.length_map]
    exact h.slots_length
  · intro p i hfull
    simp only [removed, tableOf_map_fixSlot] at hfull
    have := h.bounded p _ (Slot.retire_eq_full.mp hfull)
    change i < d.dataCount - 1
    split_ifs at this <;> omega
  · simp only [removed, tableOf_map_fixSlot]
    exact h.packed.retire hi

theorem WellFormed.removed_wellFormed (h : d.WellFormed) {index : Nat} {pairs : List DictPair}
    (hi : index < d.dataCount) (hs : d.Shifted index pairs) :
    (d.removed pairs index).WellFormed where
  toSafe := h.toSafe.removed_safe hi hs
  alloced_le := h.alloced_le
  indexed := by
    refine (h.indexed.retire hi).congr (fun p _ => ?_) (fun j hj => ?_)
    · simp only [removed, tableOf_map_fixSlot]
    · change j < d.dataCount - 1 at hj
      simp only [removed, hashOf, keyOf, hs.live hj]
  distinct := by
    intro j j' k k' hj hj' hk hk' hdata
    change j < d.dataCount - 1 at hj
    change j' < d.dataCount - 1 at hj'
    simp only [removed, keyOf, hs.live hj] at hk
    simp only [removed, keyOf, hs.live hj'] at hk'
    have heq := h.distinct _ _ k k' (by split_ifs <;> omega) (by split_ifs <;> omega) hk hk' hdata
    split_ifs at heq <;> omega

theorem Tidy.dictRemove_eq (h : d.Tidy) {index : Nat} {key : Blob} {value : Option Blob}
    (hpair : d.pairs[index]? = some ⟨some key, value⟩) :
    ∃ pairs, dictRemove d index = .ok (d.removed pairs index, key :: value.toList) ∧
      d.Shifted index pairs := by
  have hlt : index < d.pairs.length := (List.getElem?_eq_some_iff.mp hpair).1
  have hcount : d.dataCount ≤ d.pairs.length := by
    by_contra hgt
    exact absurd (h.pairs_lt (Nat.lt_of_not_le hgt)) (Nat.lt_irrefl _)
  rcases shiftPairs_eq (d.dataCount - (index + 1)) (index + 1) d.pairs (by omega) (by omega) with
    ⟨pairs, hrun, hlen, hpairs⟩
  refine ⟨pairs, ?_, hlen, fun j => ?_⟩
  · rw [dictRemove, readAt_eq_ok.mpr hpair, Fallible.ok_bind, hrun]
    rfl
  · rw [hpairs j]
    by_cases hin : index ≤ j ∧ j + 1 < d.dataCount
    · rw [if_pos hin, if_pos (by omega)]
    · rw [if_neg hin, if_neg (by omega)]

end Dict

end HashTable
end KnShim
