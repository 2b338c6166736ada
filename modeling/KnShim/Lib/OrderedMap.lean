import Mathlib.Data.List.Nodup
import Mathlib.Data.List.Perm.Subperm
import Mathlib.Logic.Function.Basic

/-!
# OrderedMap — finite maps that remember the order of insertion

An `OrderedMap` is a list of pairs with pairwise different keys.  `put` on a present key replaces
the value where it stands and on a new key appends; `erase` keeps the order of the rest.

Besides the map laws (`lookup_put`, `lookup_erase`) the file gives the positional reading of each
operation: `put` is `List.set` and `erase` is `List.eraseIdx` at the position of the key.
-/

namespace KnShim
namespace Lib

/-- A list of pairs whose keys are pairwise different. -/
@[ext] structure OrderedMap (κ ν : Type) where
  entries : List (κ × ν)
  nodup : (entries.map Prod.fst).Nodup

namespace OrderedMap

variable {κ ν : Type}

def empty : OrderedMap κ ν where
  entries := []
  nodup := List.nodup_nil

def size (m : OrderedMap κ ν) : Nat := m.entries.length

def keys (m : OrderedMap κ ν) : List κ := m.entries.map Prod.fst

theorem length_keys (m : OrderedMap κ ν) : m.keys.length = m.size := List.length_map _

/-- The `i`-th key in insertion order. -/
def keyAt (m : OrderedMap κ ν) (i : Nat) : Option κ := m.entries[i]?.map Prod.fst

/-- The `i`-th value in insertion order. -/
def valueAt (m : OrderedMap κ ν) (i : Nat) : Option ν := m.entries[i]?.map Prod.snd

theorem mem_keys_of_entry {m : OrderedMap κ ν} {i : Nat} {k : κ} {v : ν}
    (h : m.entries[i]? = some (k, v)) : k ∈ m.keys :=
  List.mem_map.mpr ⟨(k, v), List.mem_of_getElem? h, rfl⟩

theorem exists_entry_of_mem_keys {m : OrderedMap κ ν} {k : κ} (h : k ∈ m.keys) :
    ∃ (i : Nat) (v : ν), m.entries[i]? = some (k, v) := by
  rcases List.mem_map.mp h with ⟨⟨k', v⟩, hmem, rfl⟩
  rcases List.getElem?_of_mem hmem with ⟨i, hi⟩
  exact ⟨i, v, hi⟩

/-- Equal keys stand at equal positions. -/
theorem position_unique (m : OrderedMap κ ν) {i j : Nat} {k : κ} {v w : ν}
    (hi : m.entries[i]? = some (k, v)) (hj : m.entries[j]? = some (k, w)) : i = j := by
  have hi' : (m.entries.map Prod.fst)[i]? = some k := by simp [hi]
  have hj' : (m.entries.map Prod.fst)[j]? = some k := by simp [hj]
  have hlt : i < (m.entries.map Prod.fst).length := (List.getElem?_eq_some_iff.mp hi').1
  -- the keys have no duplicates
  exact (List.getElem?_inj hlt m.nodup).mp (hi'.trans hj'.symm)

section Operations

variable [DecidableEq κ]

def contains (m : OrderedMap κ ν) (k : κ) : Bool := decide (k ∈ m.keys)

def lookup (m : OrderedMap κ ν) (k : κ) : Option ν :=
  (m.entries.find? (fun e => e.1 = k)).map Prod.snd

/-- Replacing values changes no key. -/
theorem map_fst_replace (entries : List (κ × ν)) (k : κ) (v : ν) :
    (entries.map (fun e => if e.1 = k then (k, v) else e)).map Prod.fst = entries.map Prod.fst := by
  rw [List.map_map]
  refine List.map_congr_left (fun e _ => ?_)
  by_cases h : e.1 = k
  · simp [h]
  · simp [h]

/-- Give `k` the value `v` where it stands. -/
def replace (m : OrderedMap κ ν) (k : κ) (v : ν) : OrderedMap κ ν where
  entries := m.entries.map (fun e => if e.1 = k then (k, v) else e)
  nodup := by
    rw [map_fst_replace]
    exact m.nodup

/-- Add a new key behind all others. -/
def append (m : OrderedMap κ ν) (k : κ) (v : ν) (h : k ∉ m.keys) : OrderedMap κ ν where
  entries := m.entries ++ [(k, v)]
  nodup := by
    rw [List.map_append]
    refine List.Nodup.append m.nodup (List.nodup_singleton k) ?_
    intro x hx hx'
    have hxk : x = k := by simpa using hx'
    exact h (hxk ▸ hx)

/-- Insert or replace. -/
def put (m : OrderedMap κ ν) (k : κ) (v : ν) : OrderedMap κ ν :=
  if h : k ∈ m.keys then m.replace k v else m.append k v h

def erase (m : OrderedMap κ ν) (k : κ) : OrderedMap κ ν where
  entries := m.entries.filter (fun e => e.1 ≠ k)
  nodup := m.nodup.sublist ((List.filter_sublist).map Prod.fst)

/-! ## The operations by position -/

/-- Looking a key up finds the pair that holds it. -/
theorem lookup_eq_some_iff {m : OrderedMap κ ν} {k : κ} {v : ν} :
    m.lookup k = some v ↔ (k, v) ∈ m.entries := by
  constructor
  · intro h
    rcases Option.map_eq_some_iff.mp h with ⟨e, hf, rfl⟩
    have hek : e.1 = k := by simpa using List.find?_some hf
    subst hek
    exact List.mem_of_find?_eq_some hf
  · intro hmem
    cases hf : m.entries.find? (fun e => e.1 = k) with
    | none =>
        have hne := List.find?_eq_none.mp hf (k, v) hmem
        simp at hne
    | some e =>
        have hek : e.1 = k := by simpa using List.find?_some hf
        subst hek
        rcases List.getElem?_of_mem hmem with ⟨i, hi⟩
        rcases List.getElem?_of_mem (List.mem_of_find?_eq_some hf) with ⟨j, hj⟩
        -- the two pairs with this key stand at the same position
        have hij : i = j := m.position_unique hi hj
        subst hij
        have hev : e = (e.1, v) := Option.some.inj (hj.symm.trans hi)
        simp only [lookup, hf, Option.map_some]
        rw [hev]

theorem lookup_of_entry {m : OrderedMap κ ν} {i : Nat} {k : κ} {v : ν}
    (h : m.entries[i]? = some (k, v)) : m.lookup k = some v :=
  lookup_eq_some_iff.mpr (List.mem_of_getElem? h)

theorem lookup_of_not_mem {m : OrderedMap κ ν} {k : κ} (h : k ∉ m.keys) : m.lookup k = none := by
  cases hl : m.lookup k with
  | none => rfl
  | some v => exact absurd (List.mem_map.mpr ⟨(k, v), lookup_eq_some_iff.mp hl, rfl⟩) h

/-- `put` on the key at position `i` overwrites that position. -/
theorem put_entries_of_entry {m : OrderedMap κ ν} {i : Nat} {k : κ} {v₀ : ν} (v : ν)
    (h : m.entries[i]? = some (k, v₀)) : (m.put k v).entries = m.entries.set i (k, v) := by
  have hmem : k ∈ m.keys := mem_keys_of_entry h
  have hput : m.put k v = m.replace k v := by simp [put, hmem]
  rw [hput]
  apply List.ext_getElem?
  intro j
  -- by position: no other entry has this key
  by_cases hij : i = j
  · subst hij
    have hlt : i < m.entries.length := (List.getElem?_eq_some_iff.mp h).1
    simp [replace, h, List.getElem?_set_self hlt]
  · rw [List.getElem?_set_ne hij]
    cases hj : m.entries[j]? with
    | none => simp [replace, hj]
    | some e =>
        have hne : e.1 ≠ k := by
          intro hek
          have hj' : m.entries[j]? = some (k, e.2) := by rw [hj, ← hek]
          exact hij (m.position_unique h hj')
        simp [replace, hj, hne]

theorem put_entries_of_not_mem {m : OrderedMap κ ν} {k : κ} (v : ν) (h : k ∉ m.keys) :
    (m.put k v).entries = m.entries ++ [(k, v)] := by
  simp [put, h, append]

/-- `erase` of the key at position `i` closes that position. -/
theorem erase_entries_of_entry {m : OrderedMap κ ν} {i : Nat} {k : κ} {v : ν}
    (h : m.entries[i]? = some (k, v)) : (m.erase k).entries = m.entries.eraseIdx i := by
  have hlt : i < m.entries.length := (List.getElem?_eq_some_iff.mp h).1
  have hi : m.entries[i] = (k, v) := (List.getElem?_eq_some_iff.mp h).2
  -- the filter drops the entry at `i` and no other
  have hrest : ∀ j e, m.entries[j]? = some e → j ≠ i → e.1 ≠ k := by
    intro j e hj hji hek
    have hj' : m.entries[j]? = some (k, e.2) := by rw [hj, ← hek]
    exact hji (m.position_unique hj' h)
  have htake : (m.entries.take i).filter (fun e => e.1 ≠ k) = m.entries.take i := by
    refine List.filter_eq_self.mpr (fun e he => ?_)
    rcases List.getElem?_of_mem he with ⟨j, hj⟩
    have hji : j < i := by
      have := (List.getElem?_eq_some_iff.mp hj).1
      simp only [List.length_take] at this
      omega
    rw [List.getElem?_take_of_lt hji] at hj
    simpa using hrest j e hj (by omega)
  have hdrop : (m.entries.drop (i + 1)).filter (fun e => e.1 ≠ k) = m.entries.drop (i + 1) := by
    refine List.filter_eq_self.mpr (fun e he => ?_)
    rcases List.getElem?_of_mem he with ⟨j, hj⟩
    rw [List.getElem?_drop] at hj
    simpa using hrest (i + 1 + j) e hj (by omega)
  have hsplit : m.entries = m.entries.take i ++ (k, v) :: m.entries.drop (i + 1) := by
    rw [← hi, List.getElem_cons_drop, List.take_append_drop]
  calc
    (m.erase k).entries
        = (m.entries.take i ++ (k, v) :: m.entries.drop (i + 1)).filter (fun e => e.1 ≠ k) := by
          rw [← hsplit]
          rfl
    _ = m.entries.take i ++ m.entries.drop (i + 1) := by
          rw [List.filter_append, htake, List.filter_cons_of_neg (by simp), hdrop]
    _ = m.entries.eraseIdx i := (List.eraseIdx_eq_take_drop_succ _ _).symm

theorem erase_of_not_mem {m : OrderedMap κ ν} {k : κ} (h : k ∉ m.keys) : m.erase k = m := by
  apply OrderedMap.ext
  refine List.filter_eq_self.mpr (fun e he => ?_)
  have hne : e.1 ≠ k := fun hek => h (List.mem_map.mpr ⟨e, he, hek⟩)
  simpa using hne

theorem keys_put_of_mem {m : OrderedMap κ ν} {k : κ} (v : ν) (h : k ∈ m.keys) :
    (m.put k v).keys = m.keys := by
  have hput : (m.put k v).entries = (m.replace k v).entries := by simp [put, h]
  rw [keys, hput]
  exact map_fst_replace m.entries k v

theorem keys_put_of_not_mem {m : OrderedMap κ ν} {k : κ} (v : ν) (h : k ∉ m.keys) :
    (m.put k v).keys = m.keys ++ [k] := by
  rw [keys, put_entries_of_not_mem v h, List.map_append]
  rfl

theorem mem_keys_put {m : OrderedMap κ ν} {k k' : κ} (v : ν) :
    k' ∈ (m.put k v).keys ↔ k' ∈ m.keys ∨ k' = k := by
  by_cases h : k ∈ m.keys
  · rw [keys_put_of_mem v h]
    exact ⟨Or.inl, fun hk' => hk'.elim id (fun hk' => hk' ▸ h)⟩
  · simp [keys_put_of_not_mem v h]

/-- `put` of a key that is there adds none. -/
theorem size_put_of_mem {m : OrderedMap κ ν} {k : κ} (v : ν) (h : k ∈ m.keys) :
    (m.put k v).size = m.size := by
  rw [← length_keys, keys_put_of_mem v h, length_keys]

theorem size_le_put (m : OrderedMap κ ν) (k : κ) (v : ν) : m.size ≤ (m.put k v).size := by
  by_cases h : k ∈ m.keys
  · exact Nat.le_of_eq (size_put_of_mem v h).symm
  · rw [← length_keys (m.put k v), keys_put_of_not_mem v h, List.length_append, length_keys]
    exact Nat.le_add_right _ _

/-- `put` the pairs of a list, one after the other. -/
def putAll (m : OrderedMap κ ν) (es : List (κ × ν)) : OrderedMap κ ν :=
  es.foldl (fun m e => m.put e.1 e.2) m

theorem putAll_cons (m : OrderedMap κ ν) (e : κ × ν) (es : List (κ × ν)) :
    m.putAll (e :: es) = (m.put e.1 e.2).putAll es := rfl

theorem size_le_putAll (m : OrderedMap κ ν) (es : List (κ × ν)) : m.size ≤ (m.putAll es).size := by
  induction es generalizing m with
  | nil => exact Nat.le_refl _
  | cons e es ih => exact Nat.le_trans (m.size_le_put e.1 e.2) (ih (m.put e.1 e.2))

/-- Putting pairs with new keys lines them up. -/
theorem putAll_entries {m : OrderedMap κ ν} {es : List (κ × ν)}
    (h : ((m.entries ++ es).map Prod.fst).Nodup) : (m.putAll es).entries = m.entries ++ es := by
  induction es generalizing m with
  | nil => simp [putAll]
  -- the head is appended, because its key is not among the keys so far
  | cons e es ih =>
      have hsplit : m.entries ++ e :: es = (m.entries ++ [e]) ++ es := by simp
      have hnew : e.1 ∉ m.keys := by
        intro hmem
        rw [hsplit, List.map_append, List.map_append] at h
        exact (List.nodup_append.mp (List.nodup_append.mp h).1).2.2 _ hmem _ (by simp) rfl
      have hput : (m.put e.1 e.2).entries = m.entries ++ [e] := put_entries_of_not_mem e.2 hnew
      rw [putAll_cons, ih, hput, ← hsplit]
      rw [hput, ← hsplit]
      exact h

theorem mem_keys_putAll {m : OrderedMap κ ν} {es : List (κ × ν)} {k : κ} :
    k ∈ (m.putAll es).keys ↔ k ∈ m.keys ∨ k ∈ es.map Prod.fst := by
  induction es generalizing m with
  | nil => simp [putAll]
  | cons e es ih => rw [putAll_cons, ih, mem_keys_put, or_assoc, List.map_cons, List.mem_cons]

/-- Pairs of which none is lost have different keys. -/
theorem nodup_of_size_putAll {es : List (κ × ν)}
    (h : ((empty : OrderedMap κ ν).putAll es).size = es.length) : (es.map Prod.fst).Nodup := by
  have hsub : ((empty : OrderedMap κ ν).putAll es).keys ⊆ es.map Prod.fst := by
    intro k hk
    rcases mem_keys_putAll.mp hk with hk | hk
    · cases hk
    · exact hk
  -- the keys of the map are as many as the pairs
  have hlen : (es.map Prod.fst).length = ((empty : OrderedMap κ ν).putAll es).keys.length := by
    rw [List.length_map, length_keys, h]
  have hnodup : ((empty : OrderedMap κ ν).putAll es).keys.Nodup := nodup _
  exact ((hnodup.subperm hsub).perm_of_length_le (Nat.le_of_eq hlen)).nodup_iff.mp hnodup

/-- A map is what its entries make of the empty map. -/
theorem empty_putAll (m : OrderedMap κ ν) : empty.putAll m.entries = m :=
  OrderedMap.ext (putAll_entries m.nodup)

/-! ## The map laws -/

theorem mem_put_entries {m : OrderedMap κ ν} {k k' : κ} {v v' : ν} :
    (k', v') ∈ (m.put k v).entries ↔ if k' = k then v' = v else (k', v') ∈ m.entries := by
  by_cases h : k ∈ m.keys
  · rcases exists_entry_of_mem_keys h with ⟨i, w, hi⟩
    have hput : (m.put k v).entries = (m.replace k v).entries := by simp [put, h]
    rw [hput]
    constructor
    -- an entry of the new list comes from an old one, replaced or not
    · intro hmem
      rcases List.mem_map.mp hmem with ⟨e, he, heq⟩
      by_cases hek : e.1 = k
      · simp only [hek, if_true, Prod.mk.injEq] at heq
        simp [heq.1.symm, heq.2.symm]
      · simp only [hek, if_false] at heq
        subst heq
        simpa [hek] using he
    · intro hval
      by_cases hkk : k' = k
      · have hvv : v' = v := by simpa [hkk] using hval
        refine List.mem_map.mpr ⟨(k, w), List.mem_of_getElem? hi, ?_⟩
        simp [hkk, hvv]
      · have hmem : (k', v') ∈ m.entries := by simpa [hkk] using hval
        exact List.mem_map.mpr ⟨(k', v'), hmem, by simp [hkk]⟩
  · rw [put_entries_of_not_mem v h]
    by_cases hkk : k' = k
    · subst hkk
      have hnot : (k', v') ∉ m.entries := fun hmem => h (List.mem_map.mpr ⟨_, hmem, rfl⟩)
      simp [hnot]
    · simp [hkk]

theorem lookup_put (m : OrderedMap κ ν) (k : κ) (v : ν) :
    (m.put k v).lookup = Function.update m.lookup k (some v) := by
  funext k'
  ext v'
  rw [lookup_eq_some_iff, mem_put_entries, Function.update_apply]
  by_cases hkk : k' = k
  · simp [hkk, eq_comm]
  · simp [hkk, lookup_eq_some_iff]

theorem lookup_erase (m : OrderedMap κ ν) (k : κ) :
    (m.erase k).lookup = Function.update m.lookup k none := by
  funext k'
  ext v'
  rw [lookup_eq_some_iff, Function.update_apply]
  by_cases hkk : k' = k
  · simp [erase, hkk]
  · simp [erase, hkk, lookup_eq_some_iff]

end Operations

end OrderedMap

end Lib
end KnShim
