import KnShim.HashTable.Growth

/-!
# Probing — the loop of `KH_InsertSlot` ends

The loop has no counter.  It ends because fewer slots are in use than there are, however many marks
deletions have left, and an insertion may take a mark.  `WalkEnds` says where the loop ends;
`insertSlot_ends` says that it does on the slots of every reachable dictionary, on the slots that
the copy loop of `KH_ResizeDict` has filled so far, and on those that it leaves.
-/

namespace KnShim
namespace HashTable

open Lib ProbeIndex

/-! ## One walk -/

/-- Where the loop of `KH_InsertSlot` is after `m` rounds. -/
def insertPosition (nslots : Nat) (hash : UInt32) : Nat → Nat
  | 0 => blobStartingIndexForSize hash nslots
  | m + 1 => ((insertPosition nslots hash m + 1) % 2 ^ 32) &&& (nslots - 1)

/-- A slot that refers to no pair. -/
def Reusable (slot : UInt32) : Prop := slot = hashEmpty ∨ slot = hashDeleted

/-- After `m` rounds, fewer than there are slots, the loop takes the first reusable slot on its way
and changes no other one. -/
structure WalkEnds (slots : List UInt32) (nslots : Nat) (hash : UInt32) (m : Nat) : Prop where
  within : m < nslots
  used : ∀ i < m, ∃ slot, slots[insertPosition nslots hash i]? = some slot ∧ ¬ Reusable slot
  free : ∃ slot, slots[insertPosition nslots hash m]? = some slot ∧ Reusable slot
  takes : ∀ index, insertSlot slots nslots hash index =
    .ok (slots.set (insertPosition nslots hash m) index)
  keeps : ∀ (index : UInt32) (p : Nat) (slot : UInt32), slots[p]? = some slot → ¬ Reusable slot →
    (slots.set (insertPosition nslots hash m) index)[p]? = some slot

theorem insertPosition_eq (k : Nat) (hash : UInt32) (m : Nat) :
    insertPosition (2 ^ k) hash m = probe (walkSize (2 ^ k)) hash.toNat m := by
  induction m with
  | zero => exact insert_position_zero hash k
  | succ m ih => rw [insertPosition, ih, insert_position_succ]

/-- With fewer pairs than the walk has slots, every walk ends. -/
theorem SlotsSafe.walkEnds {slots : List UInt32} {k count : Nat} (h : SlotsSafe slots (2 ^ k) count)
    (hlt : count < walkSize (2 ^ k)) (hash : UInt32) : ∃ m, WalkEnds slots (2 ^ k) hash m := by
  rcases h.packed.exists_first_free hlt hash.toNat with ⟨m, hm, hfree, hway⟩
  -- every position of the walk is one of the slots
  have hget : ∀ i, ∃ slot, slots[insertPosition (2 ^ k) hash i]? = some slot := by
    intro i
    have hpos : 0 < walkSize (2 ^ k) := Nat.zero_lt_of_lt hm
    have hin : insertPosition (2 ^ k) hash i < slots.length := by
      rw [insertPosition_eq, h.slots_length]
      exact lt_of_lt_of_le (probe_lt hpos _ _) (walkSize_le _)
    exact ⟨_, List.getElem?_eq_getElem hin⟩
  have hreusable : ∀ {i slot}, slots[insertPosition (2 ^ k) hash i]? = some slot →
      ((tableOf slots (probe (walkSize (2 ^ k)) hash.toNat i)).Free ↔ Reusable slot) := by
    intro i slot hslot
    rw [insertPosition_eq] at hslot
    exact free_tableOf hslot
  rcases hget m with ⟨last, hlast⟩
  refine ⟨m, lt_of_lt_of_le hm (walkSize_le _), ?_, ⟨last, hlast, (hreusable hlast).mp hfree⟩,
    ?_, ?_⟩
  · intro i hi
    rcases hget i with ⟨slot, hslot⟩
    exact ⟨slot, hslot, mt (hreusable hslot).mpr (hway i hi)⟩
  · intro index
    rw [insertPosition_eq]
    exact insertSlot_eq hash index h.slots_length hm hfree hway
  · intro index p slot hslot hused
    -- the slot that is taken is reusable, so it is another one
    have hne : insertPosition (2 ^ k) hash m ≠ p := by
      rintro rfl
      obtain rfl : last = slot := Option.some.inj (hlast.symm.trans hslot)
      exact hused ((hreusable hlast).mp hfree)
    rw [List.getElem?_set_ne hne]
    exact hslot

/-! ## The walks of a dictionary -/

namespace Dict

/-- The new slots of `KH_ResizeDict` when its copy loop comes to the pair `j`. -/
def Rehashed (d : Dict) (j : Nat) (slots : List UInt32) : Prop :=
  ∃ pairs, resizeCopy d.newSize (d.pairs.take j) (List.replicate d.newSize hashEmpty)
    (List.replicate d.newSize DictPair.null) 0 = .ok (slots, pairs, j)

/-- Wherever `KH_DictInsert` starts the loop of `KH_InsertSlot`, with whatever hash, it ends. -/
structure InsertsEnd (d : Dict) : Prop where
  /-- A dictionary without slots is resized first. -/
  resizes : d.dataAlloced = 0 → d.full
  here : d.dataAlloced ≠ 0 → ∀ hash, ∃ m, WalkEnds d.slots d.dataAlloced hash m
  /-- The copy loop gets past all pairs without a `NULL`. -/
  rehash : d.full → ∀ j, (∀ i < j, ∃ key value, d.pairs[i]? = some ⟨some key, some value⟩) →
    ∃ slots, d.Rehashed j slots ∧ ∀ hash, ∃ m, WalkEnds slots d.newSize hash m
  resized : d.full → ∀ alloc : TableAlloc, alloc.grants d.newSize = true →
    ∃ d', resizeDict alloc d = .ok (some d') ∧ d'.dataAlloced = d.newSize ∧
      ∀ hash, ∃ m, WalkEnds d'.slots d'.dataAlloced hash m

variable {d : Dict}

theorem Safe.walkEnds (h : d.Safe) (hpos : d.dataAlloced ≠ 0) (hcount : d.dataCount < 2 ^ 32)
    (hash : UInt32) : ∃ m, WalkEnds d.slots d.dataAlloced hash m := by
  rcases h.alloced with h0 | ⟨k, _, hN⟩
  · exact absurd h0 hpos
  · have hslots : SlotsSafe d.slots (2 ^ k) d.dataCount := hN ▸ h.toSlotsSafe
    have hwalk : d.dataCount < walkSize (2 ^ k) := by
      rw [walkSize, ← hN]
      exact lt_min (h.count_lt hpos) hcount
    rw [hN]
    exact hslots.walkEnds hwalk hash

/-- Before the pair `j` the new slots refer to the `j` pairs before it. -/
theorem Tidy.rehashed (h : d.Tidy) (hfull : d.full) (hcount : d.dataCount < 2 ^ 32) {j : Nat}
    (hlive : ∀ i < j, ∃ key value, d.pairs[i]? = some ⟨some key, some value⟩) :
    ∃ slots, d.Rehashed j slots ∧ ∀ hash, ∃ m, WalkEnds slots d.newSize hash m := by
  rcases h.newSize_eq with ⟨k, _, hN⟩
  -- the pairs without a `NULL` are at most the pairs in use
  have hj : j ≤ (livePrefix d.pairs).length := le_livePrefix_length _ _ hlive
  have hcopied : j ≤ d.dataCount := le_trans hj (h.livePrefix_length_le hfull)
  have hlen : (d.pairs.take j).length = j :=
    List.length_take_of_le (le_trans hj (List.takeWhile_prefix _).length_le)
  have hload : d.load ≤ d.dataAlloced := by
    simp only [load]
    omega
  have hwalk : j < walkSize (2 ^ k) := by
    rw [walkSize, ← hN]
    refine lt_min ?_ (lt_of_le_of_lt hcopied hcount)
    calc
      j ≤ d.dataCount := hcopied
      _ ≤ d.load := h.load_le
      _ ≤ d.dataAlloced := hload
      _ < d.newSize := d.dataAlloced_lt_newSize
  have hroom : (livePrefix (d.pairs.take j)).length ≤ walkSize (2 ^ k) := by
    rw [livePrefix_take hj, hlen]
    exact Nat.le_of_lt hwalk
  rcases resizeCopy_start (d.pairs.take j) hroom with ⟨slots, hcopy, hc⟩
  rw [livePrefix_take hj] at hcopy hc
  rw [hlen, ← hN] at hcopy
  have hsafe : SlotsSafe slots (2 ^ k) j := hlen ▸ hc.safe
  refine ⟨slots, ⟨_, hcopy⟩, fun hash => ?_⟩
  rw [hN]
  exact hsafe.walkEnds hwalk hash

theorem WellFormed.insertsEnd (h : d.WellFormed) : d.InsertsEnd where
  resizes := by
    intro h0
    rw [full_iff, load, h0]
    exact Nat.zero_le _
  here := fun hpos hash => h.toSafe.walkEnds hpos (lt_trans h.count_lt_marks (by decide)) hash
  rehash := fun hfull _ hlive => h.toSafe.tidy.rehashed hfull
    (lt_trans h.count_lt_marks (by decide)) hlive
  resized := by
    intro hfull alloc hgrant
    have hcount : d.dataCount < 2 ^ 32 := lt_trans h.count_lt_marks (by decide)
    rcases h.toSafe.resizeDict_safe hfull hcount hgrant with ⟨slots, hres, hsafe, _⟩
    refine ⟨d.resized slots, hres, rfl, ?_⟩
    have hpos : (d.resized slots).dataAlloced ≠ 0 :=
      Nat.ne_of_gt (Nat.zero_lt_of_lt d.dataAlloced_lt_newSize)
    have hle : (d.resized slots).dataCount ≤ d.dataCount :=
      h.toSafe.tidy.livePrefix_length_le hfull
    exact hsafe.walkEnds hpos (lt_of_le_of_lt hle hcount)

end Dict

/-- In every reachable dictionary of at most `2 ^ 32` slots the loop of `KH_InsertSlot` ends at a
slot that refers to no pair, for a new pair and for each pair that a resize moves. -/
theorem insertSlot_ends {calls : List DictCall} {d : Dict} {answers : List DictAnswer}
    (hrun : dictMachine.run calls = .ok (d, answers)) (hsize : d.dataAlloced ≤ 2 ^ 32) :
    d.InsertsEnd :=
  (dict_run_wellFormed hrun hsize).insertsEnd

/-- Each of eight slots has been used, and all of the pairs are gone. -/
theorem insertSlot_ends_all_deleted :
    let calls : List DictCall := [0, 1, 2, 3, 4, 5, 6, 7].flatMap fun b : UInt8 =>
      [.set .always (.ofBytes 0 [b]) (some (.ofBytes 1 [])), .delete (.ofBytes 2 [b])]
    ∃ d answers, dictMachine.run calls = .ok (d, answers) ∧
      d.slots = List.replicate 8 hashDeleted ∧ d.InsertsEnd := by
  intro calls
  have hrun : (dictMachine.run calls).toOption.any
      (fun r => decide (r.1.slots = List.replicate 8 hashDeleted ∧ r.1.dataAlloced ≤ 2 ^ 32)) =
        true := by
    decide +kernel
  rcases Fallible.exists_ok_of_any hrun with ⟨⟨d, answers⟩, hok, hd⟩
  rcases of_decide_eq_true hd with ⟨hslots, hsize⟩
  exact ⟨d, answers, hok, hslots, insertSlot_ends hok hsize⟩

end HashTable
end KnShim
