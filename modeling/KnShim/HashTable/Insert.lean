import KnShim.HashTable.Lookup
import Mathlib.Data.List.TakeWhile

/-!
# Insert — placing a pair, with and without growing the table

`insertSlot_eq` says where the walk of `KH_InsertSlot` ends.  `Grows` collects what one insertion
does to the slots; the copy loop of `KH_ResizeDict` and the last part of `KH_DictInsert` both use
it.  The file ends with the specification of `KH_DictInsert`
(`Safe.dictInsert_safe`, whose cases are `Inserted`).
-/

namespace KnShim
namespace HashTable

open Lib ProbeIndex

/-! ## `KH_InsertSlot` -/

theorem free_tableOf {slots : List UInt32} {p : Nat} {slot : UInt32} (h : slots[p]? = some slot) :
    (tableOf slots p).Free ↔ slot = hashEmpty ∨ slot = hashDeleted := by
  rw [tableOf_of_getElem? h, free_decodeSlot]

/-- The walk writes to the first reusable slot on its way. -/
theorem insertSlotLoop_eq {slots : List UInt32} {k h n : Nat} (index : UInt32)
    (hlen : slots.length = 2 ^ k)
    (hfree : (tableOf slots (probe (walkSize (2 ^ k)) h n)).Free)
    (hway : ∀ m < n, ¬ (tableOf slots (probe (walkSize (2 ^ k)) h m)).Free) :
    ∀ fuel m, m ≤ n → n < m + fuel →
      insertSlotLoop slots (2 ^ k) index fuel (probe (walkSize (2 ^ k)) h m) =
        .ok (slots.set (probe (walkSize (2 ^ k)) h n) index) := by
  have hW : 0 < walkSize (2 ^ k) := by
    rw [walkSize_two_pow]
    exact Nat.two_pow_pos _
  have hlt : ∀ m, probe (walkSize (2 ^ k)) h m < slots.length := by
    intro m
    rw [hlen]
    exact lt_of_lt_of_le (probe_lt hW h m) (walkSize_le _)
  -- induction on the fuel; `m` is how far the walk has come, and it stops at `n`
  intro fuel
  induction fuel with
  | zero =>
      intro m hm hn
      omega
  | succ fuel ih =>
      intro m hm hn
      have hslot := List.getElem?_eq_getElem (hlt m)
      rw [insertSlotLoop, readAt_of_lt (hlt m), Fallible.ok_bind]
      by_cases hmn : m = n
      · subst hmn
        -- the first reusable slot: the walk writes here
        rw [if_pos ((free_tableOf hslot).mp hfree), writeAt_of_lt index (hlt m)]
      -- a slot in use: one step further
      · have hused := hway m (by omega)
        rw [free_tableOf hslot] at hused
        rw [if_neg hused, insert_position_succ]
        exact ih (m + 1) (by omega) (by omega)

theorem insertSlot_eq {slots : List UInt32} {k n : Nat} (hash index : UInt32)
    (hlen : slots.length = 2 ^ k) (hn : n < walkSize (2 ^ k))
    (hfree : (tableOf slots (probe (walkSize (2 ^ k)) hash.toNat n)).Free)
    (hway : ∀ m < n, ¬ (tableOf slots (probe (walkSize (2 ^ k)) hash.toNat m)).Free) :
    insertSlot slots (2 ^ k) hash index =
      .ok (slots.set (probe (walkSize (2 ^ k)) hash.toNat n) index) := by
  have hfuel : n < 0 + 2 ^ k := by
    have := walkSize_le (2 ^ k)
    omega
  rw [insertSlot, insert_position_zero]
  exact insertSlotLoop_eq index hlen hfree hway (2 ^ k) 0 (Nat.zero_le n) hfuel

/-- What the insertion of item `count` with hash `h` does to `n` slots. -/
structure Grows (n count h : Nat) (slots slots' : List UInt32) : Prop where
  safe : SlotsSafe slots' n (count + 1)
  sound : n ≤ 2 ^ 32 → count < 2 ^ 32 - 2 → ∀ home, Sound n count home (tableOf slots) →
    Sound n (count + 1) (Function.update home count h) (tableOf slots')

theorem insertSlot_grows {slots : List UInt32} {k count : Nat} (hash : UInt32)
    (hs : SlotsSafe slots (2 ^ k) count) (hlt : count < walkSize (2 ^ k)) :
    ∃ slots', insertSlot slots (2 ^ k) hash (UInt32.ofNat count) = .ok slots' ∧
      Grows (2 ^ k) count hash.toNat slots slots' := by
  -- fewer items than slots, so the walk meets a free one
  rcases hs.packed.exists_first_free hlt hash.toNat with ⟨n, hn, hfree, hway⟩
  have hp : probe (walkSize (2 ^ k)) hash.toNat n < slots.length := by
    rw [hs.slots_length]
    exact lt_of_lt_of_le (probe_lt (by omega) _ _) (walkSize_le _)
  have hcount : count < 2 ^ 32 := lt_of_lt_of_le hlt (min_le_right _ _)
  have htable := tableOf_set (UInt32.ofNat count) hp
  refine ⟨_, insertSlot_eq hash (UInt32.ofNat count) hs.slots_length hn hfree hway, ?_, ?_⟩
  · constructor
    · rw [List.length_set]
      exact hs.slots_length
    -- an index in the table is an old one or the new one
    · intro p i hfull
      rw [htable] at hfull
      by_cases hpn : p = probe (walkSize (2 ^ k)) hash.toNat n
      · rw [hpn, Function.update_self] at hfull
        have := eq_of_decodeSlot_ofNat hcount hfull
        omega
      · rw [Function.update_of_ne hpn] at hfull
        have := hs.bounded p i hfull
        omega
    · rw [htable]
      -- on a table over `2 ^ 32` slots the new index may read as a mark
      exact hs.packed.place (fun i hi => eq_of_decodeSlot_ofNat hcount hi)
  · intro hsize hmark home hsound
    -- up to `2 ^ 32` slots the 32-bit walk is the walk of the lookup
    rw [walkSize_of_le hsize] at hn hfree hway htable ⊢
    rw [htable, decodeSlot_ofNat hmark]
    exact hsound.place hn hfree hway

/-! ## `KH_ResizeDict` -/

/-- A pair without `NULL`. -/
def DictPair.live (pair : DictPair) : Bool := pair.key.isSome && pair.value.isSome

/-- The pairs that the copy loop of `KH_ResizeDict` takes over. -/
def livePrefix (pairs : List DictPair) : List DictPair := pairs.takeWhile DictPair.live

theorem livePrefix_pair {pairs : List DictPair} {i : Nat} (h : i < (livePrefix pairs).length) :
    ∃ key value, pairs[i]? = some ⟨some key, some value⟩ ∧
      (livePrefix pairs)[i]? = some ⟨some key, some value⟩ := by
  have hpre : livePrefix pairs <+: pairs := List.takeWhile_prefix _
  have hget : pairs[i]? = some (livePrefix pairs)[i] := by
    rw [List.getElem?_eq_getElem (lt_of_lt_of_le h hpre.length_le), hpre.getElem h]
  have hlive : ((livePrefix pairs)[i]).live = true :=
    List.mem_takeWhile_imp (List.getElem_mem h)
  rw [hget, List.getElem?_eq_getElem h]
  -- of the four shapes of a pair only one is live
  generalize (livePrefix pairs)[i] = pair at hlive
  rcases pair with ⟨_ | key, _ | value⟩
  · cases hlive
  · cases hlive
  · cases hlive
  · exact ⟨key, value, rfl, rfl⟩

/-- Pairs without `NULL` at the start of the array belong to its live prefix. -/
theorem le_livePrefix_length :
    ∀ (pairs : List DictPair) (n : Nat),
      (∀ i < n, ∃ key value, pairs[i]? = some ⟨some key, some value⟩) →
      n ≤ (livePrefix pairs).length := by
  intro pairs
  induction pairs with
  | nil =>
      intro n h
      by_contra hn
      rcases h 0 (by omega) with ⟨key, value, hget⟩
      simp at hget
  | cons pair rest ih =>
      intro n h
      cases n with
      | zero => exact Nat.zero_le _
      | succ n =>
          rcases h 0 (by omega) with ⟨key, value, hget⟩
          obtain rfl : pair = ⟨some key, some value⟩ := by simpa using hget
          have hrest : n ≤ (livePrefix rest).length := ih n (fun i hi => by
            simpa using h (i + 1) (by omega))
          have hlive : livePrefix (⟨some key, some value⟩ :: rest) =
              ⟨some key, some value⟩ :: livePrefix rest := by
            simp [livePrefix, DictPair.live]
          rw [hlive, List.length_cons]
          omega

/-- The live prefix of a part of itself is that part. -/
theorem livePrefix_take {pairs : List DictPair} {j : Nat} (h : j ≤ (livePrefix pairs).length) :
    livePrefix (pairs.take j) = pairs.take j := by
  have hpre : livePrefix pairs <+: pairs := List.takeWhile_prefix _
  have htake : pairs.take j = (livePrefix pairs).take j := by
    rw [List.prefix_iff_eq_take.mp hpre, List.take_take, Nat.min_eq_left h]
  refine List.takeWhile_eq_self_iff.mpr fun pair hpair => ?_
  rw [htake] at hpair
  exact List.mem_takeWhile_imp (List.mem_of_mem_take hpair)

/-- An array of `n` pairs that starts with `pairs` and is zero behind them. -/
def padTo (n : Nat) (pairs : List DictPair) : List DictPair :=
  pairs ++ List.replicate (n - pairs.length) DictPair.null

theorem padTo_length {n : Nat} {pairs : List DictPair} (h : pairs.length ≤ n) :
    (padTo n pairs).length = n := by
  simp [padTo]
  omega

theorem padTo_of_lt {n i : Nat} {pairs : List DictPair} (h : i < pairs.length) :
    (padTo n pairs)[i]? = pairs[i]? :=
  List.getElem?_append_left h

theorem padTo_of_ge {n i : Nat} {pairs : List DictPair} (h : pairs.length ≤ i) (hn : i < n) :
    (padTo n pairs)[i]? = some DictPair.null := by
  rw [padTo, List.getElem?_append_right h, List.getElem?_replicate_of_lt (by omega)]

theorem writeAt_padTo {n : Nat} {pairs : List DictPair} (pair : DictPair) (h : pairs.length < n) :
    writeAt (padTo n pairs) pairs.length pair = .ok (padTo n (pairs ++ [pair])) := by
  rw [writeAt_of_lt pair (by rw [padTo_length (by omega)]; exact h)]
  -- the pair replaces the first of the zero pairs
  have hn : n - pairs.length = (n - (pairs ++ [pair]).length) + 1 := by
    rw [List.length_append, List.length_singleton]
    omega
  rw [padTo, hn, List.replicate_succ, List.set_append_right _ _ (Nat.le_refl _)]
  simp [padTo]

theorem hashOf_append {pairs : List DictPair} {key : Blob} {value : Option Blob} {i : Nat}
    (hi : i < pairs.length + 1) :
    hashOf (pairs ++ [⟨some key, value⟩]) i =
      Function.update (hashOf pairs) pairs.length key.hash.toNat i := by
  by_cases hlast : i = pairs.length
  · subst hlast
    simp [hashOf, keyOf]
  · have hlt : i < pairs.length := by omega
    rw [Function.update_of_ne hlast]
    simp [hashOf, keyOf, List.getElem?_append_left hlt]

/-- What the copy loop leaves, when it has taken over `pairs`. -/
structure Copied (n : Nat) (pairs : List DictPair) (slots : List UInt32) : Prop where
  safe : SlotsSafe slots n pairs.length
  sound : n ≤ 2 ^ 32 → pairs.length ≤ 2 ^ 32 - 2 →
    Sound n pairs.length (hashOf pairs) (tableOf slots)

theorem copied_nil (n : Nat) : Copied n [] (List.replicate n hashEmpty) where
  safe := slotsSafe_replicate n
  sound := by
    intro _ _
    rw [tableOf_replicate]
    exact Sound.vacant n _

theorem Copied.snoc {n : Nat} {pairs : List DictPair} {slots slots' : List UInt32} {key : Blob}
    {value : Option Blob} (hc : Copied n pairs slots)
    (hg : Grows n pairs.length key.hash.toNat slots slots') :
    Copied n (pairs ++ [⟨some key, value⟩]) slots' where
  safe := by
    rw [List.length_append, List.length_singleton]
    exact hg.safe
  sound := by
    intro hn hlen
    rw [List.length_append, List.length_singleton] at hlen ⊢
    have hsound := hg.sound hn (by omega) _ (hc.sound hn (by omega))
    exact hsound.congr (fun _ _ => rfl) (fun i hi => hashOf_append hi)

/-- The copy loop takes over the live prefix of the old pairs, in order. -/
theorem resizeCopy_eq {k : Nat} :
    ∀ (old pre : List DictPair) (slots : List UInt32), Copied (2 ^ k) pre slots →
      (pre ++ livePrefix old).length ≤ walkSize (2 ^ k) →
      ∃ slots', resizeCopy (2 ^ k) old slots (padTo (2 ^ k) pre) pre.length =
          .ok (slots', padTo (2 ^ k) (pre ++ livePrefix old), (pre ++ livePrefix old).length) ∧
        Copied (2 ^ k) (pre ++ livePrefix old) slots' := by
  intro old
  -- the loop stops at the first pair with a `NULL`, as the live prefix does
  induction old with
  | nil =>
      intro pre slots hc _
      exact ⟨slots, by simp [resizeCopy, livePrefix], by simpa [livePrefix] using hc⟩
  | cons pair rest ih =>
      intro pre slots hc hlen
      rcases pair with ⟨key, value⟩
      cases key with
      | none => exact ⟨slots, by simp [resizeCopy, livePrefix, DictPair.live],
          by simpa [livePrefix, DictPair.live] using hc⟩
      | some key =>
          cases value with
          | none => exact ⟨slots, by simp [resizeCopy, livePrefix, DictPair.live],
              by simpa [livePrefix, DictPair.live] using hc⟩
          | some value =>
              -- this pair is taken over: one more slot, then the rest
              have hlive : livePrefix (⟨some key, some value⟩ :: rest) =
                  ⟨some key, some value⟩ :: livePrefix rest := by
                simp [livePrefix, DictPair.live]
              have hcat : pre ++ livePrefix (⟨some key, some value⟩ :: rest) =
                  (pre ++ [⟨some key, some value⟩]) ++ livePrefix rest := by
                rw [hlive]
                simp
              rw [hcat] at hlen ⊢
              have hroom : pre.length < walkSize (2 ^ k) := by
                simp only [List.length_append, List.length_singleton] at hlen
                omega
              rcases insertSlot_grows key.hash hc.safe hroom with ⟨slots₁, hins, hgrow⟩
              rcases ih (pre ++ [⟨some key, some value⟩]) slots₁ (hc.snoc hgrow) hlen with
                ⟨slots₂, hrest, hc₂⟩
              refine ⟨slots₂, ?_, hc₂⟩
              have hwrite := writeAt_padTo ⟨some key, some value⟩
                (lt_of_lt_of_le hroom (walkSize_le _))
              simp only [resizeCopy]
              rw [hwrite, Fallible.ok_bind, hins, Fallible.ok_bind]
              simpa using hrest

/-- The same from the start of the loop, on slots and pairs that are all unused. -/
theorem resizeCopy_start {k : Nat} (old : List DictPair)
    (hroom : (livePrefix old).length ≤ walkSize (2 ^ k)) :
    ∃ slots, resizeCopy (2 ^ k) old (List.replicate (2 ^ k) hashEmpty)
        (List.replicate (2 ^ k) DictPair.null) 0 =
          .ok (slots, padTo (2 ^ k) (livePrefix old), (livePrefix old).length) ∧
      Copied (2 ^ k) (livePrefix old) slots := by
  have hpad : padTo (2 ^ k) [] = List.replicate (2 ^ k) DictPair.null := by simp [padTo]
  have hcopy := resizeCopy_eq old [] (List.replicate (2 ^ k) hashEmpty) (copied_nil _) hroom
  rwa [List.nil_append, hpad, List.length_nil] at hcopy

/-- The dictionary that a granted resize makes. -/
def Dict.resized (d : Dict) (slots : List UInt32) : Dict :=
  ⟨slots, padTo d.newSize (livePrefix d.pairs), (livePrefix d.pairs).length, d.newSize⟩

namespace Dict

variable {d : Dict}

theorem Tidy.newSize_eq (h : d.Tidy) : ∃ k, 3 ≤ k ∧ d.newSize = 2 ^ k := by
  rcases h.alloced with h0 | ⟨k, hk, hN⟩
  · exact ⟨3, Nat.le_refl 3, by simp [newSize, h0]⟩
  · have hpos : (2 : Nat) ^ k ≠ 0 := (Nat.two_pow_pos k).ne'
    refine ⟨k + 1, by omega, ?_⟩
    rw [newSize, hN, if_pos hpos, Nat.pow_succ, Nat.mul_comm]

theorem dataAlloced_lt_newSize (d : Dict) : d.dataAlloced < d.newSize := by
  unfold newSize
  split_ifs <;> omega

/-- Growing makes room. -/
theorem load_lt_load_resized (d : Dict) (slots : List UInt32) :
    d.load < (d.resized slots).load := by
  simp only [load, resized, newSize]
  split_ifs <;> omega

/-- The live prefix ends with the pairs in use, because the pair at the load is zero. -/
theorem Tidy.livePrefix_length_le (h : d.Tidy) (hfull : d.full) :
    (livePrefix d.pairs).length ≤ d.dataCount := by
  have hload := d.full_iff.mp hfull
  by_contra hgt
  have hlt : d.load < (livePrefix d.pairs).length := by omega
  -- a live prefix beyond the count would contain the zero pair at the load
  rcases livePrefix_pair hlt with ⟨key, value, hget, _⟩
  have hin : d.load < d.dataAlloced := by
    rw [← h.pairs_length]
    exact (List.getElem?_eq_some_iff.mp hget).1
  rw [h.spare d.load (Nat.le_refl _) hin] at hget
  simp [DictPair.null] at hget

/-- Without `NULL` values the live prefix is all the pairs in use. -/
theorem Tidy.livePrefix_length_eq (h : d.Tidy) (hfull : d.full) (hv : d.Valued) :
    (livePrefix d.pairs).length = d.dataCount := by
  refine le_antisymm (h.livePrefix_length_le hfull) (le_livePrefix_length _ _ (fun i hi => ?_))
  rcases h.pair_of_lt hi with ⟨key, value, hpair⟩
  cases value with
  | none => exact absurd rfl (hv i _ hi hpair)
  | some value => exact ⟨key, value, hpair⟩

theorem resized_pair {slots : List UInt32} {i : Nat} (hi : i < (livePrefix d.pairs).length) :
    (d.resized slots).pairs[i]? = d.pairs[i]? := by
  rcases livePrefix_pair hi with ⟨key, value, hget, hpre⟩
  rw [hget, ← hpre]
  exact padTo_of_lt hi

theorem Tidy.resized_tidy (h : d.Tidy) (hfull : d.full) (slots : List UInt32) :
    (d.resized slots).Tidy := by
  have hle := h.livePrefix_length_le hfull
  have hcl : d.dataCount ≤ d.load := h.load_le
  have hgrow := d.dataAlloced_lt_newSize
  have hload := d.load_lt_load_resized slots
  have hsmall : d.load ≤ d.dataAlloced := by
    simp only [load]
    omega
  constructor
  · exact padTo_length (by omega)
  · exact Or.inr h.newSize_eq
  -- the load grows with the table, the count does not
  · change (livePrefix d.pairs).length ≤ _
    omega
  -- the pairs taken over have their keys
  · intro i hi
    rcases livePrefix_pair hi with ⟨key, value, hget, _⟩
    exact ⟨key, keyOf_of_pair ((resized_pair hi).trans hget)⟩
  -- behind the load the new array is zero
  · intro i hi hin
    exact padTo_of_ge (by omega) hin

/-- A granted resize keeps the live prefix and nothing else. -/
theorem Safe.resizeDict_safe (h : d.Safe) {alloc : TableAlloc} (hfull : d.full)
    (hcount : d.dataCount < 2 ^ 32) (hgrant : alloc.grants d.newSize = true) :
    ∃ slots, resizeDict alloc d = .ok (some (d.resized slots)) ∧ (d.resized slots).Safe ∧
      (d.newSize ≤ 2 ^ 32 → d.WellFormed → (d.resized slots).WellFormed) := by
  rcases h.tidy.newSize_eq with ⟨k, hk, hN⟩
  have hle := h.tidy.livePrefix_length_le hfull
  have hload := d.full_iff.mp hfull
  have hcl : d.dataCount ≤ d.load := h.load_le
  have hsmall : d.load ≤ d.dataAlloced := by
    simp only [load]
    omega
  have hgrow := d.dataAlloced_lt_newSize
  have hroom : (livePrefix d.pairs).length ≤ walkSize (2 ^ k) := by
    rw [walkSize, ← hN]
    exact le_min (by omega) (by omega)
  -- the loop starts on an empty table
  rcases resizeCopy_start d.pairs hroom with ⟨slots, hcopy, hc⟩
  rw [← hN] at hcopy hc
  have hrun : resizeDict alloc d = .ok (some (d.resized slots)) := by
    rw [resizeDict, if_pos hgrant, hcopy]
    rfl
  have hsafe : (d.resized slots).Safe := (h.tidy.resized_tidy hfull slots).safe hc.safe
  refine ⟨slots, hrun, hsafe, ?_⟩
  intro hsize hwf
  constructor
  · exact hsafe
  · exact hsize
  · have hmark : (livePrefix d.pairs).length ≤ 2 ^ 32 - 2 := by
      have := hwf.count_lt_marks
      omega
    refine (hc.sound hsize hmark).congr (fun _ _ => rfl) (fun i hi => ?_)
    simp only [resized, hashOf, keyOf, padTo_of_lt hi]
  · intro i j key key' hi hj hkey hkey' hdata
    -- two keys of the new table are two keys of the old one
    have hold : ∀ i < (livePrefix d.pairs).length,
        keyOf (d.resized slots).pairs i = keyOf d.pairs i := by
      intro i hi
      simp only [keyOf, resized_pair hi]
    have hi' : i < (livePrefix d.pairs).length := hi
    have hj' : j < (livePrefix d.pairs).length := hj
    rw [hold i hi'] at hkey
    rw [hold j hj'] at hkey'
    exact hwf.distinct i j key key' (by omega) (by omega) hkey hkey' hdata

/-! ## `KH_DictInsert` -/

/-- The dictionary with one more pair. -/
def placed (d : Dict) (slots : List UInt32) (key : Blob) (value : Option Blob) : Dict :=
  ⟨slots, d.pairs.set d.dataCount ⟨some key, value⟩, d.dataCount + 1, d.dataAlloced⟩

theorem placed_pair_self (h : d.dataCount < d.pairs.length) (slots : List UInt32) (key : Blob)
    (value : Option Blob) :
    (d.placed slots key value).pairs[d.dataCount]? = some ⟨some key, value⟩ :=
  List.getElem?_set_self h

theorem placed_pair_ne {i : Nat} (hi : i ≠ d.dataCount) (slots : List UInt32) (key : Blob)
    (value : Option Blob) : (d.placed slots key value).pairs[i]? = d.pairs[i]? :=
  List.getElem?_set_ne (Ne.symm hi)

theorem Tidy.placed_tidy (h : d.Tidy) (hroom : d.dataCount < d.load) (slots : List UInt32)
    (key : Blob) (value : Option Blob) : (d.placed slots key value).Tidy := by
  have hload : d.load ≤ d.dataAlloced := by
    simp only [load]
    omega
  have hpairs : d.dataCount < d.pairs.length := by
    rw [h.pairs_length]
    exact lt_of_lt_of_le hroom hload
  constructor
  · simp only [placed, List.length_set]
    exact h.pairs_length
  · exact h.alloced
  · exact hroom
  -- every pair has a key: the new one its own
  · intro i hi
    by_cases hlast : i = d.dataCount
    · rw [hlast]
      exact ⟨key, keyOf_of_pair (placed_pair_self hpairs slots key value)⟩
    · have hi' : i < d.dataCount := by
        change i < d.dataCount + 1 at hi
        omega
      simp only [keyOf, placed_pair_ne hlast]
      exact h.keyed i hi'
  -- the zero pairs lie behind the load, the new pair before it
  · intro i hi hin
    have hne : i ≠ d.dataCount := by
      change d.load ≤ i at hi
      omega
    rw [placed_pair_ne hne]
    exact h.spare i hi hin

/-- The old pairs stay where they are. -/
theorem placed_keyOf_lt {i : Nat} (hi : i < d.dataCount) (slots : List UInt32) (key : Blob)
    (value : Option Blob) : keyOf (d.placed slots key value).pairs i = keyOf d.pairs i := by
  simp only [keyOf, placed_pair_ne (Nat.ne_of_lt hi)]

/-- A key that differs from every old one leaves the keys distinct. -/
theorem WellFormed.placed_distinct (h : d.WellFormed) (hpairs : d.dataCount < d.pairs.length)
    (slots : List UInt32) {key : Blob} (value : Option Blob)
    (habsent : ∀ j other, j < d.dataCount → keyOf d.pairs j = some other → other.data ≠ key.data)
    {i j : Nat} {key₁ key₂ : Blob} (hi : i < d.dataCount + 1) (hj : j < d.dataCount + 1)
    (hkey₁ : keyOf (d.placed slots key value).pairs i = some key₁)
    (hkey₂ : keyOf (d.placed slots key value).pairs j = some key₂)
    (hdata : key₁.data = key₂.data) : i = j := by
  have hself : keyOf (d.placed slots key value).pairs d.dataCount = some key :=
    keyOf_of_pair (placed_pair_self hpairs slots key value)
  rcases Nat.lt_succ_iff_lt_or_eq.mp hi with hil | rfl
  · rw [placed_keyOf_lt hil] at hkey₁
    rcases Nat.lt_succ_iff_lt_or_eq.mp hj with hjl | rfl
    · rw [placed_keyOf_lt hjl] at hkey₂
      exact h.distinct i j key₁ key₂ hil hjl hkey₁ hkey₂ hdata
    · obtain rfl : key = key₂ := Option.some.inj (hself.symm.trans hkey₂)
      exact absurd hdata (habsent i key₁ hil hkey₁)
  · obtain rfl : key = key₁ := Option.some.inj (hself.symm.trans hkey₁)
    rcases Nat.lt_succ_iff_lt_or_eq.mp hj with hjl | rfl
    · rw [placed_keyOf_lt hjl] at hkey₂
      exact absurd hdata.symm (habsent j key₂ hjl hkey₂)
    · rfl

/-- Below the load there is room for one more pair. -/
theorem Safe.dictPlace_safe (h : d.Safe) (hroom : d.dataCount < d.load)
    (hcount : d.dataCount < 2 ^ 32) (key : Blob) (value : Option Blob) :
    ∃ slots, dictPlace d key value = .ok (d.placed slots key value) ∧
      (d.placed slots key value).Safe ∧
      (d.WellFormed → Found d key none → (d.placed slots key value).WellFormed) := by
  have hpos : d.dataAlloced ≠ 0 := by
    intro h0
    simp only [load, h0] at hroom
    omega
  have hlt := h.count_lt hpos
  have hpairs : d.dataCount < d.pairs.length := by
    rw [h.pairs_length]
    exact hlt
  rcases h.alloced with h0 | ⟨k, hk, hN⟩
  · exact absurd h0 hpos
  -- the slots are a power of two, with a free one on every walk
  have hslots : SlotsSafe d.slots (2 ^ k) d.dataCount := hN ▸ h.toSlotsSafe
  have hwalk : d.dataCount < walkSize (2 ^ k) := by
    rw [walkSize, ← hN]
    exact lt_min hlt hcount
  rcases insertSlot_grows key.hash hslots hwalk with ⟨slots, hins, hgrow⟩
  rw [← hN] at hins hgrow
  have hrun : dictPlace d key value = .ok (d.placed slots key value) := by
    rw [dictPlace, writeAt_of_lt _ hpairs, Fallible.ok_bind, hins]
    rfl
  have hself : keyOf (d.placed slots key value).pairs d.dataCount = some key :=
    keyOf_of_pair (placed_pair_self hpairs slots key value)
  have hsafe : (d.placed slots key value).Safe :=
    (h.tidy.placed_tidy hroom slots key value).safe hgrow.safe
  refine ⟨slots, hrun, hsafe, ?_⟩
  intro hwf habsent
  rcases habsent with _ | habsent
  constructor
  · exact hsafe
  · exact hwf.alloced_le
  -- the table indexes the old pairs and the new one
  · refine (hgrow.sound hwf.alloced_le hwf.count_lt_marks _ hwf.indexed).congr
      (fun _ _ => rfl) (fun i hi => ?_)
    by_cases hlast : i = d.dataCount
    · rw [hlast, Function.update_self]
      exact hashOf_of_key hself
    · rw [Function.update_of_ne hlast]
      simp only [hashOf, placed_keyOf_lt (Nat.lt_of_le_of_ne (Nat.le_of_lt_succ hi) hlast)]
  · intro i j key₁ key₂ hi hj hkey₁ hkey₂ hdata
    exact hwf.placed_distinct hpairs slots value habsent hi hj hkey₁ hkey₂ hdata

/-- How `KH_DictInsert` ends: refused, placed, or placed in a resized table. -/
inductive Inserted (alloc : TableAlloc) (d : Dict) (key : Blob) (value : Option Blob) :
    Dict → Bool → Prop
  | refused (full : d.full) (denied : alloc.grants d.newSize = false) :
      Inserted alloc d key value d false
  | placed (room : ¬ d.full) (slots : List UInt32) :
      Inserted alloc d key value (d.placed slots key value) true
  | grown (full : d.full) (granted : alloc.grants d.newSize = true) (slots slots' : List UInt32) :
      Inserted alloc d key value ((d.resized slots).placed slots' key value) true

/-- `KH_DictInsert` never faults; it keeps the invariant when the key is new. -/
theorem Safe.dictInsert_safe (h : d.Safe) (hcount : d.dataCount < 2 ^ 32) (alloc : TableAlloc)
    (key : Blob) (value : Option Blob) :
    ∃ d' ok, dictInsert alloc d key value = .ok (d', ok) ∧ Inserted alloc d key value d' ok ∧
      d'.Safe ∧
      (d.WellFormed → Found d key none →
        (d.full → alloc.grants d.newSize = true → d.newSize ≤ 2 ^ 32) → d'.WellFormed) := by
  by_cases hfull : d.full
  -- at the load: nothing happens unless the resize is granted
  · cases hgrant : alloc.grants d.newSize with
    | false =>
        refine ⟨d, false, ?_, .refused hfull hgrant, h, fun hwf _ _ => hwf⟩
        simp [dictInsert, hfull, resizeDict, hgrant]
    | true =>
        rcases h.resizeDict_safe hfull hcount hgrant with ⟨slots, hres, hsafe, hkeep⟩
        -- a resize may drop pairs, it never adds any
        have hle : (d.resized slots).dataCount ≤ d.dataCount :=
          h.tidy.livePrefix_length_le hfull
        have hroom : (d.resized slots).dataCount < (d.resized slots).load := by
          have := d.load_lt_load_resized slots
          have := h.load_le
          omega
        rcases hsafe.dictPlace_safe hroom (lt_of_le_of_lt hle hcount) key value with
          ⟨slots', hplace, hsafe', hkeep'⟩
        refine ⟨_, true, ?_, .grown hfull hgrant slots slots', hsafe', ?_⟩
        · simp [dictInsert, hfull, hres, hplace]
        · intro hwf habsent hlimit
          refine hkeep' (hkeep (hlimit hfull rfl) hwf) (.nowhere (fun j other hj hkey => ?_))
          rcases habsent with _ | habsent
          have hj' : j < (livePrefix d.pairs).length := hj
          refine habsent j other (by omega) ?_
          -- a key of the resized table was a key before
          rw [← hkey]
          simp only [keyOf, resized_pair hj']
  -- below the load the pair is placed at once
  · have hroom : d.dataCount < d.load := by
      have := d.full_iff.not.mp hfull
      omega
    rcases h.dictPlace_safe hroom hcount key value with ⟨slots, hplace, hsafe, hkeep⟩
    refine ⟨_, true, ?_, .placed hfull slots, hsafe, fun hwf habsent _ => hkeep hwf habsent⟩
    simp [dictInsert, hfull, hplace]

end Dict

end HashTable
end KnShim
