import KnShim.HashTable.Ownership
import KnShim.HashTable.Refinement

/-!
# KeyOrder — the keys of a dictionary, in the order of insertion

`KH_DictKeyIter` counts through the pairs in use.  `Stepped.keys` says that no call reorders their
keys: a new key comes last, and the rest are keys from before, in their order.  This holds on tables
of any size, and also when a `NULL` value makes a resize lose pairs.
-/

namespace KnShim
namespace HashTable

open Lib

namespace Dict

variable {d d' : Dict} {i : Nat}

/-- The keys of the pairs in use. -/
def keys (d : Dict) : List Bytes := d.live.filterMap (fun pair => pair.key.map Blob.data)

/-- Every pair in use has its key. -/
theorem Tidy.keys_eq (h : d.Tidy) :
    d.keys.map some = d.live.map (fun pair => pair.key.map Blob.data) := by
  have hsome : ∀ pair ∈ d.live, ∃ key, pair.key = some key := by
    intro pair hmem
    rcases List.getElem?_of_mem hmem with ⟨i, hi⟩
    have hlt := live_lt hi
    rcases h.pair_of_lt hlt with ⟨key, value, hpair⟩
    rw [live_getElem? hlt, hpair] at hi
    exact ⟨key, by rw [← Option.some.inj hi]⟩
  have hmap : d.keys = d.live.map (fun pair => (pair.key.map Blob.data).getD []) := by
    refine List.filterMap_eq_map_iff_forall_eq_some.mpr (fun pair hmem => ?_)
    rcases hsome pair hmem with ⟨key, hkey⟩
    simp [hkey]
  rw [hmap, List.map_map]
  refine List.map_congr_left (fun pair hmem => ?_)
  rcases hsome pair hmem with ⟨key, hkey⟩
  simp [hkey]

theorem Tidy.length_keys (h : d.Tidy) : d.keys.length = d.dataCount := by
  have hlen := congrArg List.length h.keys_eq
  rw [List.length_map, List.length_map, live, List.length_take, min_eq_left h.count_le] at hlen
  exact hlen

/-- `KH_DictKeyIter` finds the key that stands at the index. -/
theorem Tidy.dictKeyIter_eq (h : d.Tidy) (hi : i < d.dataCount) :
    ∃ key, dictKeyIter d i = .ok (some key) ∧ d.keys[i]? = some key.data := by
  rcases h.pair_of_lt hi with ⟨key, value, hpair⟩
  refine ⟨key, ?_, ?_⟩
  · simp [dictKeyIter, hi, readAt_eq_ok.mpr hpair]
  · have hget := congrArg (fun keys => keys[i]?) h.keys_eq
    simpa [live_getElem? hi, hpair] using hget

/-! ## What a call does to the keys -/

/-- The keys after a call: some of those before it, and perhaps a new one at the end. -/
inductive KeysKept (before : List Bytes) : List Bytes → Prop
  | kept {kept : List Bytes} (sub : kept.Sublist before) : KeysKept before kept
  | appended {kept : List Bytes} (sub : kept.Sublist before) (key : Bytes) :
      KeysKept before (kept ++ [key])

theorem keys_placed (h : d.dataCount < d.pairs.length) (slots : List UInt32) (key : Blob)
    (value : Option Blob) : (d.placed slots key value).keys = d.keys ++ [key.data] := by
  simp [keys, live_placed h]

/-- A resize keeps the pairs up to the first `NULL`. -/
theorem Tidy.live_resized (h : d.Tidy) (hfull : d.full) (slots : List UInt32) :
    (d.resized slots).live <+: d.live := by
  have hlive : (d.resized slots).live = livePrefix d.pairs := List.take_left' rfl
  have htaken : livePrefix d.pairs <+: d.pairs := List.takeWhile_prefix _
  rw [hlive, live]
  exact List.prefix_take_iff.mpr ⟨htaken, h.livePrefix_length_le hfull⟩

/-- A new value leaves the keys as they are. -/
theorem Tidy.keys_changed (h : d.Tidy) {key : Blob} {old : Option Blob} (value : Option Blob)
    (hpair : d.pairs[i]? = some ⟨some key, old⟩) : (d.changed i key value).keys = d.keys := by
  have hsame : (d.live.map (fun pair => pair.key.map Blob.data)).set i (some key.data) =
      d.live.map (fun pair => pair.key.map Blob.data) := by
    by_cases hi : i < d.dataCount
    -- the key that is written is the one that stands there
    · have hget : (d.live.map (fun pair => pair.key.map Blob.data))[i]? = some (some key.data) := by
        simp [live_getElem? hi, hpair]
      rcases List.getElem?_eq_some_iff.mp hget with ⟨hlt, hkey⟩
      rw [← hkey]
      exact List.set_getElem_self hlt
    · have hlen : (d.live.map (fun pair => pair.key.map Blob.data)).length ≤ i := by
        rw [List.length_map, live]
        exact le_trans (List.length_take_le _ _) (Nat.le_of_not_lt hi)
      exact List.set_eq_of_length_le hlen
  have hmap : (d.changed i key value).keys.map some = d.keys.map some := by
    calc
      (d.changed i key value).keys.map some
          = (d.live.set i ⟨some key, value⟩).map (fun pair => pair.key.map Blob.data) := by
            rw [(h.changed_tidy value (h.lt_load hpair) hpair).keys_eq, live_changed]
      _ = (d.live.map (fun pair => pair.key.map Blob.data)).set i (some key.data) := List.map_set
      _ = d.keys.map some := by rw [hsame, h.keys_eq]
  exact List.map_injective_iff.mpr (Option.some_injective _) hmap

/-- A removal takes one pair out, or forgets the last one. -/
theorem Tidy.live_removed_sublist (h : d.Tidy) {pairs : List DictPair} (hs : d.Shifted i pairs) :
    (d.removed pairs i).live.Sublist d.live := by
  by_cases hi : i < d.dataCount
  · rw [h.live_removed hs hi]
    exact List.eraseIdx_sublist _ _
  · have hpairs : pairs = d.pairs := by
      apply List.ext_getElem?
      intro j
      have hout : ¬ (i ≤ j ∧ j + 1 < d.dataCount) := by omega
      rw [hs.2 j, if_neg hout]
    subst hpairs
    exact (List.take_prefix_take_left (Nat.sub_le _ _)).sublist

/-- No call reorders the keys. -/
theorem Stepped.keys (h : d.Tidy) (hstep : Stepped d d') : KeysKept d.keys d'.keys := by
  cases hstep with
  | same => exact .kept (List.Sublist.refl _)
  | inserted how =>
      cases how with
      | refused _ _ => exact .kept (List.Sublist.refl _)
      | placed room slots =>
          rw [keys_placed (h.lt_length_of_not_full room)]
          exact .appended (List.Sublist.refl _) _
      | grown full _ slots slots' =>
          -- the pairs that the resize keeps, and the new one
          rw [keys_placed ((h.resized_tidy full slots).lt_length_of_not_full
            (h.not_full_resized full slots))]
          exact .appended ((h.live_resized full slots).sublist.filterMap _) _
  | changed value pair_eq =>
      rw [h.keys_changed value pair_eq]
      exact .kept (List.Sublist.refl _)
  | removed shifted => exact .kept ((h.live_removed_sublist shifted).filterMap _)

end Dict

/-- The keys stand in the order in which the ordered map has them. -/
theorem Represents.keys_eq {d : Dict} {m : OrderedMap Bytes Bytes} (h : Represents d m) :
    d.keys = m.keys := by
  apply List.ext_getElem?
  intro i
  by_cases hi : i < d.dataCount
  · rcases h.wf.toSafe.tidy.dictKeyIter_eq hi with ⟨key, hiter, hkey⟩
    rcases h.keyIter i with ⟨blob, hblob, hdata⟩
    rw [hiter] at hblob
    cases hblob
    simpa [OrderedMap.keyAt, OrderedMap.keys, hkey] using hdata
  · have hle : d.dataCount ≤ i := Nat.le_of_not_lt hi
    have hkeys : d.keys.length ≤ i := h.wf.toSafe.tidy.length_keys.trans_le hle
    have hmap : m.keys.length ≤ i := by
      rw [OrderedMap.length_keys, h.size]
      exact hle
    rw [List.getElem?_eq_none hkeys, List.getElem?_eq_none hmap]

end HashTable
end KnShim
