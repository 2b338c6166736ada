import KnShim.HashTable.Update
import KnShim.Lib.Machine
import Mathlib.Data.Set.Function

/-!
# Calls — the exposed functions, and what holds in every reachable state

Each exposed function gets one specification: on a `Safe` dictionary it does not fault, and on a
`WellFormed` one it says where the key is and what became of the dictionary.  `dictMachine` is the
component that answers arbitrary sequences of calls; `dict_run_invariant` is the invariant of its
reachable states, spelled out on the arrays of the C code.
-/

namespace KnShim
namespace HashTable

open Lib ProbeIndex

namespace Dict

variable {d : Dict}

/-! ## `KH_DictSet` -/

theorem Inserted.dataCount_le {alloc : TableAlloc} {key : Blob} {value : Option Blob} {d' : Dict}
    {ok : Bool} (h : d.Safe) (how : Inserted alloc d key value d' ok) :
    d'.dataCount ≤ d.dataCount + 1 := by
  cases how with
  | refused _ _ => exact Nat.le_succ _
  | placed _ _ => exact Nat.le_refl _
  | grown full _ _ _ => exact Nat.succ_le_succ (h.tidy.livePrefix_length_le full)

/-- The pair that a key stands in. -/
theorem Safe.pair_of_key (h : d.Safe) {j : Nat} {other : Blob} (hj : j < d.dataCount)
    (hother : keyOf d.pairs j = some other) : ∃ value, d.pairs[j]? = some ⟨some other, value⟩ := by
  rcases h.pair_of_lt hj with ⟨other', value, hpair⟩
  rw [keyOf_of_pair hpair] at hother
  obtain rfl : other' = other := Option.some.inj hother
  exact ⟨value, hpair⟩

/-- `KH_DictSet` never faults, and adds at most one pair. -/
theorem Safe.dictSet_safe (h : d.Safe) (hcount : d.dataCount < 2 ^ 32) (alloc : TableAlloc)
    (key : Blob) (value : Option Blob) :
    ∃ o, dictSet alloc d key value = .ok o ∧ o.dict.Safe ∧
      o.dict.dataCount ≤ d.dataCount + 1 := by
  rcases h.dictLookupIndex_safe key with ⟨r, hr, hsound⟩
  cases r with
  | none =>
      rcases h.dictInsert_safe hcount alloc key value with ⟨d', ok, hins, how, hsafe, _⟩
      refine ⟨⟨d', [], ok⟩, ?_, hsafe, how.dataCount_le h⟩
      simp [dictSet, hr, hins]
  | some j =>
      rcases hsound j rfl with ⟨hj, other, hother, hdata⟩
      rcases h.pair_of_key hj hother with ⟨old, hpair⟩
      refine ⟨⟨d.changed j other value, old.toList ++ [key], true⟩, ?_,
        h.changed_safe value hj hpair, Nat.le_succ _⟩
      simp [dictSet, hr, dictChange_eq value hpair]

/-- How `KH_DictSet` ends on a `WellFormed` dictionary. -/
inductive SetDone (alloc : TableAlloc) (d : Dict) (key : Blob) (value : Option Blob) :
    Outcome Bool → Prop
  | changed (j : Nat) (other : Blob) (old : Option Blob) (lt : j < d.dataCount)
      (pair_eq : d.pairs[j]? = some ⟨some other, old⟩) (data_eq : other.data = key.data) :
      SetDone alloc d key value ⟨d.changed j other value, old.toList ++ [key], true⟩
  | inserted (absent : Found d key none) (d' : Dict) (ok : Bool)
      (how : Inserted alloc d key value d' ok) : SetDone alloc d key value ⟨d', [], ok⟩

/-- `KH_DictSet` keeps the invariant, as long as the table may not grow past `2 ^ 32` slots. -/
theorem WellFormed.dictSet_wellFormed (h : d.WellFormed) (alloc : TableAlloc) (key : Blob)
    (value : Option Blob)
    (hlimit : Found d key none → d.full → alloc.grants d.newSize = true →
      d.newSize ≤ 2 ^ 32) :
    ∃ o, dictSet alloc d key value = .ok o ∧ SetDone alloc d key value o ∧ o.dict.WellFormed := by
  -- the count fits the 32-bit index
  have hcount : d.dataCount < 2 ^ 32 := lt_trans h.count_lt_marks (by decide)
  rcases h.dictLookupIndex_wellFormed key with ⟨r, hr, hfound⟩
  cases hfound with
  | nowhere absent =>
      rcases h.toSafe.dictInsert_safe hcount alloc key value with ⟨d', ok, hins, how, _, hkeep⟩
      refine ⟨⟨d', [], ok⟩, ?_, .inserted (.nowhere absent) d' ok how,
        hkeep h (.nowhere absent) (hlimit (.nowhere absent))⟩
      simp [dictSet, hr, hins]
  | here j other lt key_eq data_eq =>
      rcases h.toSafe.pair_of_key lt key_eq with ⟨old, hpair⟩
      refine ⟨_, ?_, .changed j other old lt hpair data_eq, h.changed_wellFormed value lt hpair⟩
      simp [dictSet, hr, dictChange_eq value hpair]

/-! ## `KH_DictGet`, `KH_DictHas` and `KH_DictDelete` -/

/-- The value of the `i`-th pair. -/
def valueAt (d : Dict) (i : Nat) : Option Blob := d.pairs[i]?.bind DictPair.value

theorem WellFormed.dictGet_eq (h : d.WellFormed) (key : Blob) :
    ∃ r, Found d key r ∧ dictGet d key = .ok ⟨d, [key], r.bind d.valueAt⟩ := by
  rcases h.dictLookupIndex_wellFormed key with ⟨r, hr, hfound⟩
  refine ⟨r, hfound, ?_⟩
  cases hfound with
  | nowhere _ => simp [dictGet, hr]
  | here j other lt key_eq _ =>
      rcases h.toSafe.pair_of_key lt key_eq with ⟨value, hpair⟩
      simp [dictGet, hr, readAt_eq_ok.mpr hpair, valueAt, hpair]

theorem WellFormed.dictHas_eq (h : d.WellFormed) (key : Blob) :
    ∃ r, Found d key r ∧ dictHas d key = .ok ⟨d, [key], r.isSome⟩ := by
  rcases h.dictLookupIndex_wellFormed key with ⟨r, hr, hfound⟩
  exact ⟨r, hfound, by simp [dictHas, hr]⟩

/-- How `KH_DictDelete` ends on a `WellFormed` dictionary. -/
inductive DeleteDone (d : Dict) (key : Blob) : Outcome Bool → Prop
  | removed (j : Nat) (other : Blob) (old : Option Blob) (pairs : List DictPair)
      (lt : j < d.dataCount) (pair_eq : d.pairs[j]? = some ⟨some other, old⟩)
      (data_eq : other.data = key.data) (shifted : d.Shifted j pairs) :
      DeleteDone d key ⟨d.removed pairs j, other :: old.toList ++ [key], true⟩
  | absent (absent : Found d key none) : DeleteDone d key ⟨d, [key], false⟩

theorem WellFormed.dictDelete_wellFormed (h : d.WellFormed) (key : Blob) :
    ∃ o, dictDelete d key = .ok o ∧ DeleteDone d key o ∧ o.dict.WellFormed := by
  rcases h.dictLookupIndex_wellFormed key with ⟨r, hr, hfound⟩
  cases hfound with
  | nowhere absent =>
      refine ⟨⟨d, [key], false⟩, ?_, .absent (.nowhere absent), h⟩
      simp [dictDelete, hr]
  | here j other lt key_eq data_eq =>
      rcases h.toSafe.pair_of_key lt key_eq with ⟨old, hpair⟩
      rcases h.toSafe.tidy.dictRemove_eq hpair with ⟨pairs, hrem, hshift⟩
      refine ⟨_, ?_, .removed j other old pairs lt hpair data_eq hshift,
        h.removed_wellFormed lt hshift⟩
      simp [dictDelete, hr, hrem]

/-! ## The iterators -/

theorem Safe.dictKeyIter_eq (h : d.Safe) (i : Nat) :
    dictKeyIter d i = .ok (if i < d.dataCount then keyOf d.pairs i else none) := by
  unfold dictKeyIter
  split_ifs with hi
  · rcases h.pair_of_lt hi with ⟨key, value, hpair⟩
    simp [readAt_eq_ok.mpr hpair, keyOf_of_pair hpair]
  · rfl

theorem Safe.dictValueIter_eq (h : d.Safe) (i : Nat) :
    dictValueIter d i = .ok (if i < d.dataCount then d.valueAt i else none) := by
  unfold dictValueIter
  split_ifs with hi
  · rcases h.pair_of_lt hi with ⟨key, value, hpair⟩
    simp [readAt_eq_ok.mpr hpair, valueAt, hpair]
  · rfl

end Dict

/-! ## Sequences of calls -/

/-- A call to one of the exposed functions.  The value of `set` may be the `NULL` of a failed
`KH_CreateBlob`; a `NULL` key is dereferenced at once and is not a call that returns. -/
inductive DictCall where
  | set (alloc : TableAlloc) (key : Blob) (value : Option Blob)
  | get (key : Blob)
  | has (key : Blob)
  | delete (key : Blob)
  | len
  | keyIter (index : Nat)
  | valueIter (index : Nat)

/-- What a call returns; a returned blob is read as the bytes it holds. -/
inductive DictAnswer where
  | flag (result : Bool)
  | blob (content : Option (List UInt8))
  | size (count : Nat)
  deriving DecidableEq, Repr

def dictStep (d : Dict) : DictCall → Fallible (Dict × DictAnswer)
  | .set alloc key value => do
      let o ← dictSet alloc d key value
      return (o.dict, .flag o.result)
  | .get key => do
      let o ← dictGet d key
      return (o.dict, .blob (o.result.map Blob.data))
  | .has key => do
      let o ← dictHas d key
      return (o.dict, .flag o.result)
  | .delete key => do
      let o ← dictDelete d key
      return (o.dict, .flag o.result)
  | .len => return (d, .size (dictLen d))
  | .keyIter index => do
      let blob ← dictKeyIter d index
      return (d, .blob (blob.map Blob.data))
  | .valueIter index => do
      let blob ← dictValueIter d index
      return (d, .blob (blob.map Blob.data))

def dictMachine : Machine Dict DictCall DictAnswer where
  init := createDict
  step := dictStep

/-- The allocator of the call refuses tables of more than `2 ^ 32` slots. -/
def DictCall.Limited : DictCall → Prop
  | .set alloc _ _ => ∀ n, alloc.grants n = true → n ≤ 2 ^ 32
  | _ => True

theorem TableAlloc.upTo_limited {limit : Nat} (h : limit ≤ 2 ^ 32) {n : Nat}
    (hn : (TableAlloc.upTo limit).grants n = true) : n ≤ 2 ^ 32 := by
  have hle : n ≤ limit := by simpa [TableAlloc.upTo, TableAlloc.grants] using hn
  exact le_trans hle h

/-- No call faults, and every call keeps the invariant. -/
theorem dictStep_wellFormed {d : Dict} (h : d.WellFormed) (c : DictCall) (hc : c.Limited) :
    ∃ d' a, dictStep d c = .ok (d', a) ∧ d'.WellFormed := by
  cases c with
  | set alloc key value =>
      rcases h.dictSet_wellFormed alloc key value (fun _ _ hg => hc _ hg) with ⟨o, ho, _, hwf⟩
      exact ⟨o.dict, .flag o.result, by simp [dictStep, ho], hwf⟩
  | get key =>
      rcases h.dictGet_eq key with ⟨r, _, hr⟩
      exact ⟨d, _, by simp [dictStep, hr]; rfl, h⟩
  | has key =>
      rcases h.dictHas_eq key with ⟨r, _, hr⟩
      exact ⟨d, _, by simp [dictStep, hr]; rfl, h⟩
  | delete key =>
      rcases h.dictDelete_wellFormed key with ⟨o, ho, _, hwf⟩
      exact ⟨o.dict, .flag o.result, by simp [dictStep, ho], hwf⟩
  | len => exact ⟨d, _, rfl, h⟩
  | keyIter index => exact ⟨d, _, by simp [dictStep, h.toSafe.dictKeyIter_eq]; rfl, h⟩
  | valueIter index => exact ⟨d, _, by simp [dictStep, h.toSafe.dictValueIter_eq]; rfl, h⟩

end HashTable
end KnShim
