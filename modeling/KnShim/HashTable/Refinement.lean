import KnShim.HashTable.Calls
import KnShim.Lib.OrderedMap

/-!
# Refinement — the hash table is an insertion-ordered association list

`Represents d m` relates a dictionary to the ordered map of the contents of its blobs.  Each
exposed function moves along this relation (`Represents.dictSet`, `Represents.dictDelete`, …), and
`dict_refines_list` concludes for arbitrary sequences of calls: every call returns what it returns
on the abstract list.

The abstract state `ListDict` also knows for how many slots room was reserved.  That number decides
nothing but whether a `Set` has to reserve more, and so can be refused.
-/

namespace KnShim
namespace HashTable

open Lib

/-! ## The abstract component -/

/-- An insertion-ordered association list, and the capacity reserved for it. -/
structure ListDict where
  map : OrderedMap Bytes Bytes
  capacity : Nat

namespace ListDict

def empty : ListDict := ⟨OrderedMap.empty, 0⟩

/-- The capacity at which the next insertion must reserve more. -/
def Full (a : ListDict) : Prop := a.capacity / 2 + a.capacity / 8 ≤ a.map.size

instance (a : ListDict) : Decidable a.Full := inferInstanceAs (Decidable (_ ≤ _))

/-- The next capacity. -/
def grown (a : ListDict) : Nat := if a.capacity = 0 then 8 else 2 * a.capacity

def set (alloc : TableAlloc) (a : ListDict) (k v : Bytes) : ListDict × Bool :=
  if a.map.contains k then (⟨a.map.put k v, a.capacity⟩, true)
  else if a.Full then
    if alloc.grants a.grown then (⟨a.map.put k v, a.grown⟩, true) else (a, false)
  else (⟨a.map.put k v, a.capacity⟩, true)

/-- The abstract answers.  A `NULL` value is outside the domain of the list. -/
def step (a : ListDict) : DictCall → ListDict × DictAnswer
  | .set _ _ none => (a, .flag false)
  | .set alloc key (some value) =>
      ((a.set alloc key.data value.data).1, .flag (a.set alloc key.data value.data).2)
  | .get key => (a, .blob (a.map.lookup key.data))
  | .has key => (a, .flag (a.map.contains key.data))
  | .delete key => (⟨a.map.erase key.data, a.capacity⟩, .flag (a.map.contains key.data))
  | .len => (a, .size a.map.size)
  | .keyIter index => (a, .blob (a.map.keyAt index))
  | .valueIter index => (a, .blob (a.map.valueAt index))

end ListDict

def listDict : Spec ListDict DictCall DictAnswer where
  init := ListDict.empty
  step := ListDict.step

/-! ## The representation relation -/

/-- The pairs of `d` hold the entries of `m`, in order. -/
structure Represents (d : Dict) (m : OrderedMap Bytes Bytes) : Prop where
  wf : d.WellFormed
  size : m.size = d.dataCount
  pair : ∀ (i : Nat) (k v : Bytes), m.entries[i]? = some (k, v) →
    ∃ key value : Blob, d.pairs[i]? = some ⟨some key, some value⟩ ∧ key.data = k ∧ value.data = v

theorem represents_createDict : Represents createDict OrderedMap.empty where
  wf := createDict_wellFormed
  size := rfl
  pair := by
    intro i k v h
    cases h

namespace Represents

variable {d : Dict} {m : OrderedMap Bytes Bytes}

theorem length (h : Represents d m) : m.entries.length = d.dataCount := h.size

/-- A live pair is an entry of the list. -/
theorem entry (h : Represents d m) {i : Nat} (hi : i < d.dataCount) :
    ∃ key value : Blob, d.pairs[i]? = some ⟨some key, some value⟩ ∧
      m.entries[i]? = some (key.data, value.data) := by
  have hlt : i < m.entries.length := h.length ▸ hi
  cases hget : m.entries[i]? with
  | none => exact absurd (List.getElem?_eq_none_iff.mp hget) (Nat.not_le_of_lt hlt)
  | some e =>
      rcases h.pair i e.1 e.2 hget with ⟨key, value, hpair, hk, hv⟩
      exact ⟨key, value, hpair, by rw [hk, hv]⟩

theorem valued (h : Represents d m) : d.Valued := by
  intro i pair hi hpair
  rcases h.entry hi with ⟨key, value, hpair', _⟩
  obtain rfl : pair = ⟨some key, some value⟩ := Option.some.inj (hpair.symm.trans hpair')
  simp

/-- The entry that a found key stands in. -/
theorem entry_of_key (h : Represents d m) {j : Nat} {other : Blob} (hj : j < d.dataCount)
    (hother : keyOf d.pairs j = some other) :
    ∃ value : Blob, d.pairs[j]? = some ⟨some other, some value⟩ ∧
      m.entries[j]? = some (other.data, value.data) := by
  rcases h.entry hj with ⟨key, value, hpair, hentry⟩
  rw [keyOf_of_pair hpair] at hother
  obtain rfl : key = other := Option.some.inj hother
  exact ⟨value, hpair, hentry⟩

theorem not_mem_keys (h : Represents d m) {key : Blob} (hfound : Dict.Found d key none) :
    key.data ∉ m.keys := by
  rcases hfound with _ | absent
  intro hmem
  -- an entry of the list would be a pair that the search missed
  rcases OrderedMap.exists_entry_of_mem_keys hmem with ⟨i, v, hi⟩
  have hlt : i < d.dataCount := h.size ▸ (List.getElem?_eq_some_iff.mp hi).1
  rcases h.pair i _ _ hi with ⟨other, value, hpair, hk, _⟩
  exact absent i other hlt (keyOf_of_pair hpair) hk

/-- A lookup in the dictionary is a lookup in the list. -/
theorem found_iff (h : Represents d m) {key : Blob} {r : Option Nat} (hfound : Dict.Found d key r) :
    r.isSome = m.contains key.data ∧
      (r.bind d.valueAt).map Blob.data = m.lookup key.data := by
  cases hfound with
  -- both sides answer that there is nothing
  | nowhere absent =>
      have hnot := h.not_mem_keys (.nowhere absent)
      simp [OrderedMap.contains, hnot, OrderedMap.lookup_of_not_mem hnot]
  | here j other lt key_eq data_eq =>
      rcases h.entry_of_key lt key_eq with ⟨value, hpair, hentry⟩
      rw [data_eq] at hentry
      have hmem := OrderedMap.mem_keys_of_entry hentry
      simp [OrderedMap.contains, hmem, OrderedMap.lookup_of_entry hentry, Dict.valueAt, hpair]

/-! ## `KH_DictSet` -/

theorem changed (h : Represents d m) {j : Nat} {key other value : Blob} {old : Option Blob}
    (hj : j < d.dataCount) (hpair : d.pairs[j]? = some ⟨some other, old⟩)
    (hdata : other.data = key.data) :
    Represents (d.changed j other (some value)) (m.put key.data value.data) := by
  rcases h.entry_of_key hj (keyOf_of_pair hpair) with ⟨value₀, _, hentry⟩
  rw [hdata] at hentry
  have hput := OrderedMap.put_entries_of_entry value.data hentry
  have hlt : j < d.pairs.length := (List.getElem?_eq_some_iff.mp hpair).1
  constructor
  · exact h.wf.changed_wellFormed (some value) hj hpair
  · rw [OrderedMap.size, hput, List.length_set]
    exact h.size
  · intro i k v hi
    rw [hput] at hi
    -- the entry at `j` has the new value, the others are untouched
    by_cases hij : i = j
    · subst hij
      have hin : i < m.entries.length := (List.getElem?_eq_some_iff.mp hentry).1
      rw [List.getElem?_set_self hin] at hi
      have hkv := Option.some.inj hi
      simp only [Prod.mk.injEq] at hkv
      exact ⟨other, value, Dict.changed_pair_self hlt other (some value), hdata.trans hkv.1, hkv.2⟩
    · rw [List.getElem?_set_ne (Ne.symm hij)] at hi
      rw [Dict.changed_pair_ne hij]
      exact h.pair i k v hi

/-- One more pair behind the old ones represents one more entry. -/
theorem snoc (h : Represents d m) {d' : Dict} {key value : Blob} (hwf : d'.WellFormed)
    (hnew : key.data ∉ m.keys) (hcount : d'.dataCount = d.dataCount + 1)
    (hold : ∀ i < d.dataCount, d'.pairs[i]? = d.pairs[i]?)
    (hlast : d'.pairs[d.dataCount]? = some ⟨some key, some value⟩) :
    Represents d' (m.put key.data value.data) := by
  have hput := OrderedMap.put_entries_of_not_mem value.data hnew
  have hsize : m.entries.length = d.dataCount := h.size
  constructor
  · exact hwf
  · rw [OrderedMap.size, hput, List.length_append, List.length_singleton, hsize, hcount]
  · intro i k v hi
    rw [hput] at hi
    -- an entry is an old one or the new last one
    by_cases hlt : i < d.dataCount
    · rw [List.getElem?_append_left (by omega)] at hi
      rw [hold i hlt]
      exact h.pair i k v hi
    · have hle : i < (m.entries ++ [(key.data, value.data)]).length :=
        (List.getElem?_eq_some_iff.mp hi).1
      rw [List.length_append, List.length_singleton, hsize] at hle
      obtain rfl : i = d.dataCount := by omega
      rw [List.getElem?_append_right (by omega), hsize, Nat.sub_self] at hi
      have hkv : (key.data, value.data) = (k, v) := by simpa using hi
      simp only [Prod.mk.injEq] at hkv
      exact ⟨key, value, hlast, hkv.1, hkv.2⟩

/-- The last pair of a dictionary that an insertion has grown. -/
theorem grown (h : Represents d m) {key value : Blob} {slots slots' : List UInt32}
    (hfull : d.full) (hwf : ((d.resized slots).placed slots' key (some value)).WellFormed)
    (hnew : key.data ∉ m.keys) :
    Represents ((d.resized slots).placed slots' key (some value))
      (m.put key.data value.data) := by
  -- all values are there, so the resize drops no pair
  have hlen : (d.resized slots).dataCount = d.dataCount :=
    h.wf.toSafe.tidy.livePrefix_length_eq hfull h.valued
  have hroom : (d.resized slots).dataCount < (d.resized slots).pairs.length := by
    have hpl := hwf.pairs_length
    have hpairs := hwf.toSafe.pairs_lt (i := (d.resized slots).dataCount) (Nat.lt_succ_self _)
    simpa [Dict.placed] using hpairs
  refine h.snoc hwf hnew (by simp only [Dict.placed, hlen]) ?_ ?_
  · intro i hi
    rw [Dict.placed_pair_ne (by omega)]
    exact Dict.resized_pair (by change i < (d.resized slots).dataCount; omega)
  · rw [← hlen]
    exact Dict.placed_pair_self hroom slots' key (some value)

/-- The list reserves room exactly when the dictionary does. -/
theorem listDict_full_iff (h : Represents d m) :
    (⟨m, d.dataAlloced⟩ : ListDict).Full ↔ d.full := by
  rw [d.full_iff, ListDict.Full, h.size, Dict.load]

theorem listDict_grown (d : Dict) (m : OrderedMap Bytes Bytes) :
    (⟨m, d.dataAlloced⟩ : ListDict).grown = d.newSize := by
  simp only [ListDict.grown, Dict.newSize]
  split_ifs <;> first | rfl | omega

theorem contains_of_pair (h : Represents d m) {j : Nat} {key other : Blob} {old : Option Blob}
    (hj : j < d.dataCount) (hpair : d.pairs[j]? = some ⟨some other, old⟩)
    (hdata : other.data = key.data) : m.contains key.data = true := by
  rcases h.entry_of_key hj (keyOf_of_pair hpair) with ⟨value, _, hentry⟩
  rw [hdata] at hentry
  simp [OrderedMap.contains, OrderedMap.mem_keys_of_entry hentry]

/-- `KH_DictSet` on a represented dictionary. -/
theorem dictSet (h : Represents d m) (alloc : TableAlloc) (key value : Blob)
    (hlimit : key.data ∉ m.keys → d.full → alloc.grants d.newSize = true →
      d.newSize ≤ 2 ^ 32) :
    ∃ o, HashTable.dictSet alloc d key (some value) = .ok o ∧
      o.result = ((⟨m, d.dataAlloced⟩ : ListDict).set alloc key.data value.data).2 ∧
      Represents o.dict ((⟨m, d.dataAlloced⟩ : ListDict).set alloc key.data value.data).1.map ∧
      o.dict.dataAlloced =
        ((⟨m, d.dataAlloced⟩ : ListDict).set alloc key.data value.data).1.capacity := by
  rcases h.wf.dictSet_wellFormed alloc key (some value)
    (fun habsent => hlimit (h.not_mem_keys habsent)) with ⟨o, ho, hdone, hwf⟩
  refine ⟨o, ho, ?_⟩
  -- the list reserves room exactly when the dictionary does, and as much
  have hfulliff := h.listDict_full_iff
  have hgrown := listDict_grown d m
  -- the ways a set can end on the two sides correspond one to one
  cases hdone with
  | changed j other old lt pair_eq data_eq =>
      have hrep : Represents (d.changed j other (some value)) (m.put key.data value.data) :=
        h.changed lt pair_eq data_eq
      have hmem : m.contains key.data = true := h.contains_of_pair lt pair_eq data_eq
      simp only [ListDict.set, hmem, if_true]
      exact ⟨trivial, hrep, rfl⟩
  | inserted absent d' ok how =>
      have hnew := h.not_mem_keys absent
      have hmem : m.contains key.data = false := by simp [OrderedMap.contains, hnew]
      simp only [ListDict.set, hmem, Bool.false_eq_true, if_false, hfulliff, hgrown]
      cases how with
      | refused full denied =>
          simp only [full, denied, if_true, Bool.false_eq_true, if_false]
          exact ⟨trivial, h, trivial⟩
      | placed room slots =>
          simp only [room, if_false]
          have hpos : d.dataCount < d.pairs.length := by
            have hpairs := hwf.toSafe.pairs_lt (i := d.dataCount) (Nat.lt_succ_self _)
            simpa [Dict.placed] using hpairs
          refine ⟨trivial, h.snoc hwf hnew rfl ?_ ?_, rfl⟩
          · intro i hi
            exact Dict.placed_pair_ne (Nat.ne_of_lt hi) slots key (some value)
          · exact Dict.placed_pair_self hpos slots key (some value)
      | grown full granted slots slots' =>
          simp only [full, granted, if_true]
          exact ⟨trivial, h.grown full hwf hnew, rfl⟩

/-- `KH_DictSet` of a `NULL` value returns what it returns for any other value, and leaves the
dictionary alone only when it is refused. -/
theorem dictSet_null (h : Represents d m) (alloc : TableAlloc) (key : Blob) (v : Bytes)
    (hlimit : key.data ∉ m.keys → d.full → alloc.grants d.newSize = true →
      d.newSize ≤ 2 ^ 32) :
    ∃ o, HashTable.dictSet alloc d key none = .ok o ∧
      o.result = ((⟨m, d.dataAlloced⟩ : ListDict).set alloc key.data v).2 ∧
      (o.result = false → o.dict = d) := by
  rcases h.wf.dictSet_wellFormed alloc key none
    (fun habsent => hlimit (h.not_mem_keys habsent)) with ⟨o, ho, hdone, _⟩
  refine ⟨o, ho, ?_⟩
  have hfulliff := h.listDict_full_iff
  have hgrown := listDict_grown d m
  cases hdone with
  | changed j other old lt pair_eq data_eq =>
      have hmem : m.contains key.data = true := h.contains_of_pair lt pair_eq data_eq
      simp [ListDict.set, hmem]
  | inserted absent d' ok how =>
      have hmem : m.contains key.data = false := by
        simp [OrderedMap.contains, h.not_mem_keys absent]
      simp only [ListDict.set, hmem, Bool.false_eq_true, if_false, hfulliff, hgrown]
      cases how with
      | refused full denied => simp [full, denied]
      | placed room slots => simp [room]
      | grown full granted slots slots' => simp [full, granted]

/-! ## `KH_DictDelete` -/

theorem removed (h : Represents d m) {j : Nat} {key other : Blob} {old : Option Blob}
    {pairs : List DictPair} (hj : j < d.dataCount)
    (hpair : d.pairs[j]? = some ⟨some other, old⟩) (hdata : other.data = key.data)
    (hshift : d.Shifted j pairs) : Represents (d.removed pairs j) (m.erase key.data) := by
  rcases h.entry_of_key hj (keyOf_of_pair hpair) with ⟨value, _, hentry⟩
  rw [hdata] at hentry
  have herase := OrderedMap.erase_entries_of_entry hentry
  have hsize : m.entries.length = d.dataCount := h.size
  have hlen : (m.erase key.data).entries.length = d.dataCount - 1 := by
    rw [herase, List.length_eraseIdx_of_lt (by omega), hsize]
  constructor
  · exact h.wf.removed_wellFormed hj hshift
  · exact hlen
  · intro i k v hi
    have hlt : i < d.dataCount - 1 := hlen ▸ (List.getElem?_eq_some_iff.mp hi).1
    -- behind `j` the entries move down by one on both sides
    have hold : m.entries[if i < j then i else i + 1]? = some (k, v) := by
      rw [herase, List.getElem?_eraseIdx] at hi
      split_ifs at hi ⊢ <;> exact hi
    change ∃ key value, pairs[i]? = _ ∧ _
    rw [hshift.live hlt]
    exact h.pair _ k v hold

/-- `KH_DictDelete` on a represented dictionary. -/
theorem dictDelete (h : Represents d m) (key : Blob) :
    ∃ o, HashTable.dictDelete d key = .ok o ∧ o.result = m.contains key.data ∧
      Represents o.dict (m.erase key.data) ∧ o.dict.dataAlloced = d.dataAlloced := by
  rcases h.wf.dictDelete_wellFormed key with ⟨o, ho, hdone, _⟩
  refine ⟨o, ho, ?_⟩
  cases hdone with
  | absent absent =>
      have hnew := h.not_mem_keys absent
      refine ⟨by simp [OrderedMap.contains, hnew], ?_, rfl⟩
      rw [OrderedMap.erase_of_not_mem hnew]
      exact h
  | removed j other old pairs lt pair_eq data_eq shifted =>
      rcases h.entry_of_key lt (keyOf_of_pair pair_eq) with ⟨value, _, hentry⟩
      rw [data_eq] at hentry
      have hmem := OrderedMap.mem_keys_of_entry hentry
      exact ⟨by simp [OrderedMap.contains, hmem], h.removed lt pair_eq data_eq shifted, rfl⟩

/-! ## The iterators -/

theorem keyIter (h : Represents d m) (index : Nat) :
    ∃ blob, dictKeyIter d index = .ok blob ∧ blob.map Blob.data = m.keyAt index := by
  refine ⟨_, h.wf.toSafe.dictKeyIter_eq index, ?_⟩
  by_cases hi : index < d.dataCount
  · rcases h.entry hi with ⟨key, value, hpair, hentry⟩
    simp [hi, keyOf_of_pair hpair, OrderedMap.keyAt, hentry]
  · have hnone : m.entries[index]? = none := List.getElem?_eq_none (h.length ▸ Nat.le_of_not_lt hi)
    simp [hi, OrderedMap.keyAt, hnone]

theorem valueIter (h : Represents d m) (index : Nat) :
    ∃ blob, dictValueIter d index = .ok blob ∧ blob.map Blob.data = m.valueAt index := by
  refine ⟨_, h.wf.toSafe.dictValueIter_eq index, ?_⟩
  by_cases hi : index < d.dataCount
  · rcases h.entry hi with ⟨key, value, hpair, hentry⟩
    simp [hi, Dict.valueAt, hpair, OrderedMap.valueAt, hentry]
  · have hnone : m.entries[index]? = none := List.getElem?_eq_none (h.length ▸ Nat.le_of_not_lt hi)
    simp [hi, OrderedMap.valueAt, hnone]

end Represents

/-! ## The refinement -/

/-- A call with a value, on a table that may not grow past `2 ^ 32` slots. -/
def DictCall.Admissible (c : DictCall) : Prop :=
  c.Limited ∧ ∀ alloc key, c ≠ .set alloc key none

/-- The dictionary represents the list and has reserved its capacity. -/
def Simulates (d : Dict) (a : ListDict) : Prop :=
  Represents d a.map ∧ d.dataAlloced = a.capacity

theorem dictStep_simulates (d : Dict) (a : ListDict) (c : DictCall) (h : Simulates d a)
    (hc : c.Admissible) :
    ∃ d', dictStep d c = .ok (d', (a.step c).2) ∧ Simulates d' (a.step c).1 := by
  rcases a with ⟨m, capacity⟩
  rcases h with ⟨hrep, hcap⟩
  subst hcap
  cases c with
  | set alloc key value =>
      cases value with
      | none => exact absurd rfl (hc.2 alloc key)
      | some value =>
          rcases hrep.dictSet alloc key value (fun _ _ hg => hc.1 _ hg) with
            ⟨o, ho, hres, hrep', hcap'⟩
          exact ⟨o.dict, by simp [dictStep, ho, ListDict.step, hres], hrep', hcap'⟩
  | get key =>
      rcases hrep.wf.dictGet_eq key with ⟨r, hfound, hr⟩
      have hlook := (hrep.found_iff hfound).2
      exact ⟨d, by simp [dictStep, hr, ListDict.step, hlook], hrep, rfl⟩
  | has key =>
      rcases hrep.wf.dictHas_eq key with ⟨r, hfound, hr⟩
      have hhas := (hrep.found_iff hfound).1
      exact ⟨d, by simp [dictStep, hr, ListDict.step, hhas], hrep, rfl⟩
  | delete key =>
      rcases hrep.dictDelete key with ⟨o, ho, hres, hrep', hcap'⟩
      exact ⟨o.dict, by simp [dictStep, ho, ListDict.step, hres], hrep', hcap'⟩
  | len => exact ⟨d, by simp [dictStep, ListDict.step, dictLen, hrep.size], hrep, rfl⟩
  | keyIter index =>
      rcases hrep.keyIter index with ⟨blob, hblob, hdata⟩
      exact ⟨d, by simp [dictStep, hblob, ListDict.step, hdata], hrep, rfl⟩
  | valueIter index =>
      rcases hrep.valueIter index with ⟨blob, hblob, hdata⟩
      exact ⟨d, by simp [dictStep, hblob, ListDict.step, hdata], hrep, rfl⟩

/-- Every sequence of calls returns exactly what it returns on the insertion-ordered list. -/
theorem dict_refines_list (calls : List DictCall) (hadm : ∀ c ∈ calls, c.Admissible) :
    ∃ d, dictMachine.run calls = .ok (d, listDict.answers listDict.init calls) ∧
      Represents d (listDict.final listDict.init calls).map := by
  rcases Machine.runFrom_refines (M := dictMachine) (S := listDict) (R := Simulates)
    (G := fun _ c => c.Admissible) dictStep_simulates calls createDict ListDict.empty
    ⟨represents_createDict, rfl⟩ (listDict.admits_of_forall calls _ hadm) with
    ⟨d, hrun, hrep, _⟩
  exact ⟨d, hrun, hrep⟩

/-- A refused set, two sets, a deletion of the first key, and what is then found. -/
theorem dict_refines_list_delete :
    ∃ d, dictMachine.run
        [.set (.upTo 0) (.ofBytes 0 [1]) (some (.ofBytes 1 [10])),
          .set (.upTo 8) (.ofBytes 2 [1]) (some (.ofBytes 3 [11])),
          .set (.upTo 8) (.ofBytes 4 [2]) (some (.ofBytes 5 [20])),
          .delete (.ofBytes 6 [1]),
          .keyIter 0,
          .get (.ofBytes 7 [2])] =
      .ok (d, [.flag false, .flag true, .flag true, .flag true, .blob (some [2]),
        .blob (some [20])]) := by
  rcases dict_refines_list
      [.set (.upTo 0) (.ofBytes 0 [1]) (some (.ofBytes 1 [10])),
        .set (.upTo 8) (.ofBytes 2 [1]) (some (.ofBytes 3 [11])),
        .set (.upTo 8) (.ofBytes 4 [2]) (some (.ofBytes 5 [20])),
        .delete (.ofBytes 6 [1]),
        .keyIter 0,
        .get (.ofBytes 7 [2])]
      (by
        have hlimit : ∀ limit ≤ 8, ∀ n, (TableAlloc.upTo limit).grants n = true → n ≤ 2 ^ 32 :=
          fun limit h n => TableAlloc.upTo_limited (le_trans h (by decide))
        intro c hc
        simp only [List.mem_cons, List.not_mem_nil, or_false] at hc
        rcases hc with rfl | rfl | rfl | rfl | rfl | rfl
        · exact ⟨hlimit 0 (by decide), by simp⟩
        · exact ⟨hlimit 8 (by decide), by simp⟩
        · exact ⟨hlimit 8 (by decide), by simp⟩
        · exact ⟨trivial, by simp⟩
        · exact ⟨trivial, by simp⟩
        · exact ⟨trivial, by simp⟩) with ⟨d, hrun, _⟩
  exact ⟨d, hrun⟩

end HashTable
end KnShim
