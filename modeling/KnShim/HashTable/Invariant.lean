import KnShim.HashTable.Dict
import KnShim.Lib.ProbeIndex
import Mathlib.Data.Nat.Bitwise

/-!
# Invariant — what every operation of the hash table keeps

`tableOf` reads the 32-bit slots as the slots of a `ProbeIndex`.  The invariants, from weak to
strong:

* `Dict.Tidy` : the pairs, whatever the slots hold;
* `Dict.Safe` : enough for no operation to fault, for tables of any size;
* `Dict.WellFormed` : every pair is found, for tables of at most `2 ^ 32` slots.

The bound is real.  `KH_InsertSlot` walks with a 32-bit index, so on a larger table it goes around
after `2 ^ 32` slots (`walkSize`), where `KH_DictLookupIndex` goes on.
-/

namespace KnShim
namespace HashTable

open Lib ProbeIndex

/-! ## Slots -/

/-- What a 32-bit slot says. -/
def decodeSlot (slot : UInt32) : Slot :=
  if slot = hashEmpty then .empty
  else if slot = hashDeleted then .deleted
  else .full slot.toNat

/-- The slots as a table of `ProbeIndex`. -/
def tableOf (slots : List UInt32) (p : Nat) : Slot :=
  (slots[p]?.map decodeSlot).getD .empty

theorem decodeSlot_eq_empty {slot : UInt32} : decodeSlot slot = .empty ↔ slot = hashEmpty := by
  unfold decodeSlot
  split_ifs <;> simp_all

theorem decodeSlot_eq_full {slot : UInt32} {i : Nat} :
    decodeSlot slot = .full i ↔ slot ≠ hashEmpty ∧ slot ≠ hashDeleted ∧ slot.toNat = i := by
  unfold decodeSlot
  split_ifs with h₁ h₂
  · simp [h₁]
  · simp [h₂]
  · simp [h₁, h₂]

theorem free_decodeSlot {slot : UInt32} :
    (decodeSlot slot).Free ↔ slot = hashEmpty ∨ slot = hashDeleted := by
  unfold decodeSlot
  split_ifs with h₁ h₂
  · simp [h₁]
  · simp [h₂]
  · simp [h₁, h₂]

/-- An index below the two marks is stored as itself. -/
theorem decodeSlot_ofNat {j : Nat} (h : j < 2 ^ 32 - 2) :
    decodeSlot (UInt32.ofNat j) = .full j := by
  have hj : (UInt32.ofNat j).toNat = j := by
    rw [UInt32.toNat_ofNat']
    omega
  refine decodeSlot_eq_full.mpr ⟨?_, ?_, hj⟩
  -- neither of the two marks is below `2 ^ 32 - 2`
  · intro hc
    have : j = hashEmpty.toNat := by rw [← hc, hj]
    simp only [hashEmpty] at this
    change j = 4294967295 at this
    omega
  · intro hc
    have : j = hashDeleted.toNat := by rw [← hc, hj]
    simp only [hashDeleted] at this
    change j = 4294967294 at this
    omega

/-- A 32-bit index that is not stored as itself is stored as one of the marks. -/
theorem eq_of_decodeSlot_ofNat {i j : Nat} (hj : j < 2 ^ 32)
    (h : decodeSlot (UInt32.ofNat j) = .full i) : i = j := by
  have := (decodeSlot_eq_full.mp h).2.2
  rw [UInt32.toNat_ofNat'] at this
  omega

theorem tableOf_of_getElem? {slots : List UInt32} {p : Nat} {slot : UInt32}
    (h : slots[p]? = some slot) : tableOf slots p = decodeSlot slot := by
  simp [tableOf, h]

theorem tableOf_set {slots : List UInt32} {p : Nat} (slot : UInt32) (h : p < slots.length) :
    tableOf (slots.set p slot) = Function.update (tableOf slots) p (decodeSlot slot) := by
  funext q
  by_cases hq : q = p
  · subst hq
    simp [tableOf, List.getElem?_set_self h]
  · rw [Function.update_of_ne hq]
    simp [tableOf, List.getElem?_set_ne (Ne.symm hq)]

@[simp] theorem tableOf_replicate (n : Nat) :
    tableOf (List.replicate n hashEmpty) = fun _ => .empty := by
  funext p
  by_cases hp : p < n
  · simp [tableOf, hp, decodeSlot]
  · simp [tableOf, hp]

/-- The fix-up loop of `KH_DictRemove` is the renumbering of `ProbeIndex`. -/
theorem decodeSlot_fixSlot (r : Nat) (slot : UInt32) :
    decodeSlot (fixSlot r slot) = (decodeSlot slot).retire r := by
  by_cases he : slot = hashEmpty
  · simp [fixSlot, he, decodeSlot, Slot.retire]
  by_cases hd : slot = hashDeleted
  · have hne : hashDeleted ≠ hashEmpty := by decide
    simp [fixSlot, hd, decodeSlot, Slot.retire, hne]
  have hdec : decodeSlot slot = .full slot.toNat := decodeSlot_eq_full.mpr ⟨he, hd, rfl⟩
  rw [hdec]
  by_cases hgt : slot.toNat > r
  · -- a slot above `r` is not 0, so the decrement does not wrap onto a mark
    have hlt : slot.toNat < 2 ^ 32 - 2 := by
      have h₁ : slot.toNat < 2 ^ 32 := slot.toNat_lt
      have h₂ : slot.toNat ≠ 4294967295 := fun hc => he (UInt32.toNat_inj.mp hc)
      have h₃ : slot.toNat ≠ 4294967294 := fun hc => hd (UInt32.toNat_inj.mp hc)
      omega
    have hsub : slot - 1 = UInt32.ofNat (slot.toNat - 1) := by
      apply UInt32.toNat_inj.mp
      rw [UInt32.toNat_sub_of_le, UInt32.toNat_ofNat']
      · simp only [UInt32.toNat_one]
        omega
      · rw [UInt32.le_iff_toNat_le]
        simp only [UInt32.toNat_one]
        omega
    have hfix : fixSlot r slot = slot - 1 := by simp [fixSlot, he, hd, hgt]
    rw [hfix, hsub, decodeSlot_ofNat (by omega)]
    simp [Slot.retire, hgt]
  -- the slot of the removed pair becomes a tombstone, one below it stays
  · by_cases heq : slot.toNat = r
    · have hfix : fixSlot r slot = hashDeleted := by simp [fixSlot, he, hd, heq]
      have hne : hashDeleted ≠ hashEmpty := by decide
      simp [hfix, decodeSlot, Slot.retire, heq, hne]
    · have hfix : fixSlot r slot = slot := by simp [fixSlot, he, hd, hgt, heq]
      rw [hfix, hdec]
      simp [Slot.retire, hgt, heq]

theorem tableOf_map_fixSlot (r : Nat) (slots : List UInt32) :
    tableOf (slots.map (fixSlot r)) = fun p => (tableOf slots p).retire r := by
  funext p
  cases h : slots[p]? with
  | none => simp [tableOf, h, Slot.retire]
  | some slot => simp [tableOf, h, decodeSlot_fixSlot]

/-! ## Positions -/

/-- The number of slots that the 32-bit walk of `KH_InsertSlot` goes around. -/
def walkSize (n : Nat) : Nat := min n (2 ^ 32)

theorem walkSize_le (n : Nat) : walkSize n ≤ n := min_le_left _ _

theorem walkSize_of_le {n : Nat} (h : n ≤ 2 ^ 32) : walkSize n = n := min_eq_left h

theorem walkSize_two_pow (k : Nat) : walkSize (2 ^ k) = 2 ^ min k 32 := by
  unfold walkSize
  rcases Nat.le_total k 32 with h | h
  · rw [min_eq_left h, min_eq_left (Nat.pow_le_pow_right (by decide) h)]
  · rw [min_eq_right h, min_eq_right (Nat.pow_le_pow_right (by decide) h)]

theorem and_mask (x k : Nat) : x &&& (2 ^ k - 1) = x % 2 ^ k :=
  Nat.and_two_pow_sub_one_eq_mod x k

/-- The walk of `KH_DictLookupIndex`. -/
theorem lookup_position (hash : UInt32) (k i : Nat) :
    (blobStartingIndexForSize hash (2 ^ k) + i) &&& (2 ^ k - 1) =
      probe (2 ^ k) hash.toNat i := by
  have hpos : 2 ^ k ≠ 0 := (Nat.two_pow_pos k).ne'
  rw [blobStartingIndexForSize, if_neg hpos, and_mask, and_mask, Nat.mod_add_mod]
  rfl

/-- The walk of `KH_InsertSlot` starts at its home position. -/
theorem insert_position_zero (hash : UInt32) (k : Nat) :
    blobStartingIndexForSize hash (2 ^ k) = probe (walkSize (2 ^ k)) hash.toNat 0 := by
  have hpos : 2 ^ k ≠ 0 := (Nat.two_pow_pos k).ne'
  have hlt : hash.toNat < 2 ^ 32 := hash.toNat_lt
  rw [blobStartingIndexForSize, if_neg hpos, and_mask, walkSize_two_pow, probe, Nat.add_zero]
  rcases Nat.le_total k 32 with h | h
  -- up to 32 bits the mask is the walk's own
  · rw [min_eq_left h]
  -- beyond, the mask lets the whole hash through, as `2 ^ 32` does
  · have hk : hash.toNat < 2 ^ k := lt_of_lt_of_le hlt (Nat.pow_le_pow_right (by decide) h)
    rw [min_eq_right h, Nat.mod_eq_of_lt hk, Nat.mod_eq_of_lt hlt]

/-- One step of the walk of `KH_InsertSlot`. -/
theorem insert_position_succ (h k m : Nat) :
    ((probe (walkSize (2 ^ k)) h m + 1) % 2 ^ 32) &&& (2 ^ k - 1) =
      probe (walkSize (2 ^ k)) h (m + 1) := by
  rw [and_mask, walkSize_two_pow, probe, probe]
  have hmod : ∀ x : Nat, x % 2 ^ 32 % 2 ^ k = x % 2 ^ min k 32 := by
    intro x
    rcases Nat.le_total k 32 with hk | hk
    · rw [min_eq_left hk, Nat.mod_mod_of_dvd x (Nat.pow_dvd_pow 2 hk)]
    · have hlt : x % 2 ^ 32 < 2 ^ k :=
        lt_of_lt_of_le (Nat.mod_lt _ (by decide)) (Nat.pow_le_pow_right (by decide) hk)
      rw [min_eq_right hk, Nat.mod_eq_of_lt hlt]
  rw [hmod, Nat.mod_add_mod, Nat.add_assoc]

/-! ## Blobs -/

/-- `KH_BlobEqual` compares contents: the pointer and hash tests only make it faster. -/
theorem blobEqual_iff {blob1 blob2 : Blob} :
    blobEqual blob1 blob2 = true ↔ blob1.data = blob2.data := by
  unfold blobEqual
  by_cases hptr : blob1 = blob2
  · simp [hptr]
  · rw [if_neg hptr]
    -- different hashes or lengths: the contents differ, since both are read off them
    split_ifs with hne
    · constructor
      · intro h
        cases h
      · intro hdata
        have hh : blob1.hash = blob2.hash := by rw [blob1.hash_data, blob2.hash_data, hdata]
        have hl : blob1.length = blob2.length := by
          rw [← blob1.data_length, ← blob2.data_length, hdata]
        rcases hne with hne | hne
        · exact absurd hh hne
        · exact absurd hl hne
    · simp

/-- Equal contents start their walk at the same slot. -/
theorem hash_eq_of_data_eq {blob1 blob2 : Blob} (h : blob1.data = blob2.data) :
    blob1.hash = blob2.hash := by
  rw [blob1.hash_data, blob2.hash_data, h]

/-! ## The invariants -/

/-- The key of the `i`-th pair. -/
def keyOf (pairs : List DictPair) (i : Nat) : Option Blob := pairs[i]?.bind DictPair.key

/-- The hash of the key of the `i`-th pair. -/
def hashOf (pairs : List DictPair) (i : Nat) : Nat :=
  ((keyOf pairs i).map (fun key => key.hash.toNat)).getD 0

theorem keyOf_of_pair {pairs : List DictPair} {i : Nat} {pair : DictPair}
    (h : pairs[i]? = some pair) : keyOf pairs i = pair.key := by
  simp [keyOf, h]

theorem hashOf_of_key {pairs : List DictPair} {i : Nat} {key : Blob}
    (h : keyOf pairs i = some key) : hashOf pairs i = key.hash.toNat := by
  simp [hashOf, h]

/-- `n` slots that index `count` pairs without letting a walk go astray. -/
structure SlotsSafe (slots : List UInt32) (n count : Nat) : Prop where
  slots_length : slots.length = n
  bounded : ∀ p i, tableOf slots p = .full i → i < count
  packed : Packed (walkSize n) count (tableOf slots)

theorem slotsSafe_replicate (n : Nat) : SlotsSafe (List.replicate n hashEmpty) n 0 where
  slots_length := List.length_replicate
  bounded := by
    intro p i h
    simp at h
  packed := by
    rw [tableOf_replicate]
    exact Packed.vacant _

namespace Dict

/-- The number of pairs at which the table grows. -/
def load (d : Dict) : Nat := d.dataAlloced / 2 + d.dataAlloced / 8

theorem full_iff (d : Dict) : d.full ↔ d.load ≤ d.dataCount := by
  simp [full, load, Nat.shiftRight_eq_div_pow]

/-- The pairs in use have their keys, and those from the load on are zero. -/
structure Tidy (d : Dict) : Prop where
  pairs_length : d.pairs.length = d.dataAlloced
  alloced : d.dataAlloced = 0 ∨ ∃ k, 3 ≤ k ∧ d.dataAlloced = 2 ^ k
  load_le : d.dataCount ≤ d.load
  keyed : ∀ i < d.dataCount, ∃ key, keyOf d.pairs i = some key
  spare : ∀ i, d.load ≤ i → i < d.dataAlloced → d.pairs[i]? = some DictPair.null

/-- Enough for no operation to fault. -/
structure Safe (d : Dict) : Prop extends SlotsSafe d.slots d.dataAlloced d.dataCount where
  pairs_length : d.pairs.length = d.dataAlloced
  alloced : d.dataAlloced = 0 ∨ ∃ k, 3 ≤ k ∧ d.dataAlloced = 2 ^ k
  load_le : d.dataCount ≤ d.load
  keyed : ∀ i < d.dataCount, ∃ key, keyOf d.pairs i = some key
  spare : ∀ i, d.load ≤ i → i < d.dataAlloced → d.pairs[i]? = some DictPair.null

/-- Every pair is found, and under its own key only. -/
structure WellFormed (d : Dict) : Prop extends Safe d where
  alloced_le : d.dataAlloced ≤ 2 ^ 32
  indexed : Sound d.dataAlloced d.dataCount (hashOf d.pairs) (tableOf d.slots)
  distinct : ∀ i j key key', i < d.dataCount → j < d.dataCount →
    keyOf d.pairs i = some key → keyOf d.pairs j = some key' → key.data = key'.data → i = j

/-- No live pair has a `NULL` value. -/
def Valued (d : Dict) : Prop :=
  ∀ i pair, i < d.dataCount → d.pairs[i]? = some pair → pair.value ≠ none

instance (d : Dict) : Decidable d.Valued :=
  decidable_of_iff (∀ i < d.dataCount, ∀ pair ∈ d.pairs[i]?, pair.value ≠ none)
    ⟨fun h i pair hi hpair => h i hi pair hpair, fun h i hi pair hpair => h i pair hi hpair⟩

variable {d : Dict}

theorem Tidy.load_lt (h : d.Tidy) (hpos : d.dataAlloced ≠ 0) : d.load < d.dataAlloced := by
  rcases h.alloced with h0 | ⟨k, hk, hN⟩
  · exact absurd h0 hpos
  -- a table has at least 8 slots, and `n / 2 + n / 8 < n` from there on
  · have h8 : 2 ^ 3 ≤ 2 ^ k := Nat.pow_le_pow_right (by decide) hk
    simp only [load]
    omega

/-- There is always a free slot. -/
theorem Tidy.count_lt (h : d.Tidy) (hpos : d.dataAlloced ≠ 0) : d.dataCount < d.dataAlloced :=
  lt_of_le_of_lt h.load_le (h.load_lt hpos)

theorem Tidy.pairs_lt (h : d.Tidy) {i : Nat} (hi : i < d.dataCount) : i < d.pairs.length := by
  have hpos : d.dataAlloced ≠ 0 := by
    -- a table of size 0 has load 0, hence no pair
    intro h0
    have := h.load_le
    simp only [load, h0] at this
    omega
  rw [h.pairs_length]
  exact lt_trans hi (h.count_lt hpos)

/-- A pair in use is there, with its key. -/
theorem Tidy.pair_of_lt (h : d.Tidy) {i : Nat} (hi : i < d.dataCount) :
    ∃ key value, d.pairs[i]? = some ⟨some key, value⟩ := by
  rcases h.keyed i hi with ⟨key, hkey⟩
  rcases Option.bind_eq_some_iff.mp hkey with ⟨⟨k, value⟩, hpair, hk⟩
  simp only at hk
  subst hk
  exact ⟨key, value, hpair⟩

theorem Safe.tidy (h : d.Safe) : d.Tidy :=
  ⟨h.pairs_length, h.alloced, h.load_le, h.keyed, h.spare⟩

theorem Tidy.safe (h : d.Tidy) (hs : SlotsSafe d.slots d.dataAlloced d.dataCount) : d.Safe :=
  ⟨hs, h.pairs_length, h.alloced, h.load_le, h.keyed, h.spare⟩

theorem Safe.count_lt (h : d.Safe) (hpos : d.dataAlloced ≠ 0) : d.dataCount < d.dataAlloced :=
  h.tidy.count_lt hpos

theorem Safe.pairs_lt (h : d.Safe) {i : Nat} (hi : i < d.dataCount) : i < d.pairs.length :=
  h.tidy.pairs_lt hi

theorem Safe.pair_of_lt (h : d.Safe) {i : Nat} (hi : i < d.dataCount) :
    ∃ key value, d.pairs[i]? = some ⟨some key, value⟩ :=
  h.tidy.pair_of_lt hi

/-- A pair of a table of at most `2 ^ 32` slots has an index below the two marks. -/
theorem WellFormed.count_lt_marks (h : d.WellFormed) : d.dataCount < 2 ^ 32 - 2 := by
  have h₁ := h.load_le
  have h₂ := h.alloced_le
  simp only [load] at h₁
  omega

end Dict

theorem createDict_safe : createDict.Safe where
  toSlotsSafe := slotsSafe_replicate 0
  pairs_length := rfl
  alloced := Or.inl rfl
  load_le := Nat.le_refl 0
  keyed := by
    intro i hi
    cases hi
  spare := by
    intro i _ hi
    cases hi

theorem createDict_wellFormed : createDict.WellFormed where
  toSafe := createDict_safe
  alloced_le := Nat.zero_le _
  indexed := Sound.vacant 0 _
  distinct := by
    intro i j key key' hi
    cases hi

end HashTable
end KnShim
