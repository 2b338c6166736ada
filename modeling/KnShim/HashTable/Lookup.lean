import KnShim.HashTable.Invariant

/-!
# Lookup — `KH_DictLookupIndex` finds exactly the keys that are there

`lookupLoop_succ` says once what one step of the search does on a `Safe` dictionary, in terms of
`tableOf`.  From it, by induction on the steps left:

* the search never faults, and what it returns is a live pair with the key (`dictLookupIndex_safe`);
* on a `WellFormed` dictionary it returns the pair whenever there is one
  (`dictLookupIndex_wellFormed`).
-/

namespace KnShim
namespace HashTable

open Lib ProbeIndex

namespace Dict

variable {d : Dict}

/-- One step of the search, by what the visited slot says. -/
theorem Safe.lookupLoop_succ (h : d.Safe) {k : Nat} (hk : d.dataAlloced = 2 ^ k) (key : Blob)
    (fuel i : Nat) :
    lookupLoop d key (blobStartingIndexForSize key.hash d.dataAlloced) (fuel + 1) i =
      match tableOf d.slots (probe d.dataAlloced key.hash.toNat i) with
      | .empty => .ok none
      | .deleted =>
          lookupLoop d key (blobStartingIndexForSize key.hash d.dataAlloced) fuel (i + 1)
      | .full j =>
          match keyOf d.pairs j with
          | none => .error .nullDeref
          | some other =>
              if blobEqual key other then .ok (some j)
              else lookupLoop d key (blobStartingIndexForSize key.hash d.dataAlloced) fuel
                (i + 1) := by
  have hN : 0 < d.dataAlloced := by
    rw [hk]
    exact Nat.two_pow_pos k
  have hp : probe d.dataAlloced key.hash.toNat i < d.slots.length := by
    rw [h.slots_length]
    exact probe_lt hN _ _
  have hpos : (blobStartingIndexForSize key.hash d.dataAlloced + i) &&& (d.dataAlloced - 1) =
      probe d.dataAlloced key.hash.toNat i := by
    rw [hk]
    exact lookup_position key.hash k i
  have hslot := List.getElem?_eq_getElem hp
  rw [tableOf_of_getElem? hslot, lookupLoop, hpos, readAt_of_lt hp, Fallible.ok_bind]
  -- the three branches of the C loop are the three kinds of slots
  generalize d.slots[probe d.dataAlloced key.hash.toNat i] = slot at hslot ⊢
  by_cases he : slot = hashEmpty
  · simp [he, decodeSlot]
  by_cases hd : slot = hashDeleted
  · have hne : hashDeleted ≠ hashEmpty := by decide
    simp [hd, decodeSlot, hne]
  have hdec : decodeSlot slot = .full slot.toNat := decodeSlot_eq_full.mpr ⟨he, hd, rfl⟩
  -- an index in a slot is below the count, so the pair read there has its key
  have hlt : slot.toNat < d.dataCount :=
    h.bounded _ _ ((tableOf_of_getElem? hslot).trans hdec)
  rcases h.pair_of_lt hlt with ⟨other, value, hpair⟩
  rw [hdec, if_neg he, if_neg hd, readAt_eq_ok.mpr hpair, Fallible.ok_bind]
  simp [keyOf_of_pair hpair]

/-- The search does not fault, and what it returns is a live pair with the key. -/
theorem Safe.lookupLoop_safe (h : d.Safe) {k : Nat} (hk : d.dataAlloced = 2 ^ k) (key : Blob) :
    ∀ fuel i, ∃ r,
      lookupLoop d key (blobStartingIndexForSize key.hash d.dataAlloced) fuel i = .ok r ∧
      ∀ j, r = some j → j < d.dataCount ∧ ∃ other, keyOf d.pairs j = some other ∧
        other.data = key.data := by
  -- induction on the steps left; no invariant on the visited slots is needed
  intro fuel
  induction fuel with
  | zero =>
      intro i
      exact ⟨none, rfl, by simp⟩
  | succ fuel ih =>
      intro i
      rw [h.lookupLoop_succ hk]
      cases hs : tableOf d.slots (probe d.dataAlloced key.hash.toNat i) with
      | empty => exact ⟨none, rfl, by simp⟩
      | deleted => exact ih (i + 1)
      | full j =>
          have hj : j < d.dataCount := h.bounded _ _ hs
          rcases h.keyed j hj with ⟨other, hother⟩
          -- the pair is the answer when its key compares equal, whatever was passed before
          by_cases heq : blobEqual key other = true
          · refine ⟨some j, by simp [hother, heq], ?_⟩
            intro j' hj'
            obtain rfl : j = j' := by simpa using hj'
            exact ⟨hj, other, hother, (blobEqual_iff.mp heq).symm⟩
          · rcases ih (i + 1) with ⟨r, hr, hsound⟩
            exact ⟨r, by simp [hother, heq, hr], hsound⟩

/-- A search that has not yet passed the pair with the key returns some pair. -/
theorem Safe.lookupLoop_complete (h : d.Safe) {k : Nat} (hk : d.dataAlloced = 2 ^ k) {key : Blob}
    {j n : Nat} {other : Blob} (hother : keyOf d.pairs j = some other) (hdata : other.data = key.data)
    (hfull : tableOf d.slots (probe d.dataAlloced key.hash.toNat n) = .full j)
    (hway : ∀ m < n, tableOf d.slots (probe d.dataAlloced key.hash.toNat m) ≠ .empty) :
    ∀ fuel i, i ≤ n → n < i + fuel → ∃ j',
      lookupLoop d key (blobStartingIndexForSize key.hash d.dataAlloced) fuel i =
        .ok (some j') := by
  -- induction on the steps left; the walk is at step `i` and the pair stands at step `n`
  intro fuel
  induction fuel with
  | zero =>
      intro i hi hn
      omega
  | succ fuel ih =>
      intro i hi hn
      rw [h.lookupLoop_succ hk]
      -- at step `n` the key compares equal
      by_cases hin : i = n
      · subst hin
        refine ⟨j, ?_⟩
        have heq : blobEqual key other = true := blobEqual_iff.mpr hdata.symm
        simp [hfull, hother, heq]
      -- before it only tombstones and other pairs are passed
      · have hrest := ih (i + 1) (by omega) (by omega)
        cases hs : tableOf d.slots (probe d.dataAlloced key.hash.toNat i) with
        | empty => exact absurd hs (hway i (by omega))
        | deleted => exact hrest
        | full j' =>
            rcases h.keyed j' (h.bounded _ _ hs) with ⟨other', hother'⟩
            by_cases heq : blobEqual key other' = true
            · exact ⟨j', by simp [hother', heq]⟩
            · simpa [hother', heq] using hrest

/-! ## `KH_DictLookupIndex` -/

theorem Safe.dictLookupIndex_safe (h : d.Safe) (key : Blob) :
    ∃ r, dictLookupIndex d key = .ok r ∧
      ∀ j, r = some j → j < d.dataCount ∧ ∃ other, keyOf d.pairs j = some other ∧
        other.data = key.data := by
  rcases h.alloced with h0 | ⟨k, _, hk⟩
  -- a table of size 0 is searched for no step
  · refine ⟨none, ?_, by simp⟩
    simp [dictLookupIndex, h0, lookupLoop]
  · exact h.lookupLoop_safe hk key _ _

/-- What a lookup says about a `WellFormed` dictionary: where the key is, or that it is nowhere. -/
inductive Found (d : Dict) (key : Blob) : Option Nat → Prop
  | here (j : Nat) (other : Blob) (lt : j < d.dataCount) (key_eq : keyOf d.pairs j = some other)
      (data_eq : other.data = key.data) : Found d key (some j)
  | nowhere (absent : ∀ j other, j < d.dataCount → keyOf d.pairs j = some other →
      other.data ≠ key.data) : Found d key none

theorem WellFormed.dictLookupIndex_wellFormed (h : d.WellFormed) (key : Blob) :
    ∃ r, dictLookupIndex d key = .ok r ∧ Found d key r := by
  rcases h.toSafe.dictLookupIndex_safe key with ⟨r, hr, hsound⟩
  refine ⟨r, hr, ?_⟩
  cases r with
  | some j =>
      rcases hsound j rfl with ⟨hj, other, hother, hdata⟩
      exact .here j other hj hother hdata
  | none =>
      refine .nowhere (fun j other hj hother hdata => ?_)
      -- a dictionary with a pair has slots
      have hpos : d.dataAlloced ≠ 0 := by
        intro h0
        have := h.pairs_lt hj
        rw [h.pairs_length, h0] at this
        exact absurd this (Nat.not_lt_zero _)
      rcases h.alloced with h0 | ⟨k, _, hk⟩
      · exact hpos h0
      · -- the invariant leads the search to the pair before any never-used slot
        rcases h.indexed.reach j hj with ⟨n, hn, hfull, hway⟩
        rw [hashOf_of_key hother, hash_eq_of_data_eq hdata] at hfull hway
        rcases h.toSafe.lookupLoop_complete hk hother hdata hfull hway d.dataAlloced 0
          (Nat.zero_le _) (by omega) with ⟨j', hj'⟩
        have : (Except.ok none : Fallible (Option Nat)) = .ok (some j') := hr.symm.trans hj'
        cases this

end Dict

end HashTable
end KnShim
