import KnShim.HashTable.Growth
import Mathlib.Data.List.Perm.Basic

/-!
# Ownership — which call releases a blob

The functions of `hashtable.h` take over the blobs that they are given: each of them is stored in a
pair or released.  A `Ledger` keeps the count of the blobs that `KH_CreateBlob` has made and the list
of those that were released, and `Ledger.Exact` says that the two agree with the pairs in use.

Every call keeps the books (`Balanced`) except a set that is refused: `KH_DictSet` returns false
without releasing the key and the value.  `blobs_exact_iff` says so for whole runs.
-/

namespace KnShim
namespace HashTable

open Lib

/-! ## The blobs of a dictionary -/

/-- The pairs in use. -/
def Dict.live (d : Dict) : List DictPair := d.pairs.take d.dataCount

/-- The blobs that a pair refers to. -/
def DictPair.blobs (pair : DictPair) : List Blob := pair.key.toList ++ pair.value.toList

/-- The blobs that the pairs in use refer to, once for each reference. -/
def Dict.held (d : Dict) : List Blob := d.live.flatMap DictPair.blobs

section Lists

variable {α β : Type} {l : List α} {i : Nat} {a : α}

/-- What one element contributes to a `flatMap`, and what the others do. -/
theorem flatMap_perm_eraseIdx (f : α → List β) (h : l[i]? = some a) :
    (l.flatMap f).Perm (f a ++ (l.eraseIdx i).flatMap f) := by
  rcases List.getElem?_eq_some_iff.mp h with ⟨hi, rfl⟩
  exact (List.getElem_cons_eraseIdx_perm hi).symm.flatMap_right f

theorem flatMap_set_perm (f : α → List β) (h : i < l.length) (b : α) :
    ((l.set i b).flatMap f).Perm (f b ++ (l.eraseIdx i).flatMap f) :=
  (List.set_perm_cons_eraseIdx h b).flatMap_right f

end Lists

namespace Dict

variable {d : Dict}

theorem Tidy.count_le (h : d.Tidy) : d.dataCount ≤ d.pairs.length := by
  by_contra hgt
  exact absurd (h.pairs_lt (Nat.lt_of_not_le hgt)) (Nat.lt_irrefl _)

theorem live_getElem? {i : Nat} (hi : i < d.dataCount) : d.live[i]? = d.pairs[i]? :=
  List.getElem?_take_of_lt hi

theorem live_lt {i : Nat} {pair : DictPair} (h : d.live[i]? = some pair) : i < d.dataCount := by
  have hlen := (List.getElem?_eq_some_iff.mp h).1
  rw [live, List.length_take] at hlen
  exact lt_of_lt_of_le hlen (Nat.min_le_left _ _)

theorem valued_iff : d.Valued ↔ ∀ pair ∈ d.live, pair.value ≠ none := by
  constructor
  · intro h pair hmem
    rcases List.getElem?_of_mem hmem with ⟨i, hi⟩
    have hlt := live_lt hi
    exact h i pair hlt ((live_getElem? hlt).symm.trans hi)
  · intro h i pair hi hpair
    exact h pair (List.mem_of_getElem? ((live_getElem? hi).trans hpair))

theorem live_changed (i : Nat) (key : Blob) (value : Option Blob) :
    (d.changed i key value).live = d.live.set i ⟨some key, value⟩ := by
  simp only [live, changed, List.take_set]

theorem live_placed (h : d.dataCount < d.pairs.length) (slots : List UInt32) (key : Blob)
    (value : Option Blob) : (d.placed slots key value).live = d.live ++ [⟨some key, value⟩] := by
  have hself := placed_pair_self h slots key value
  have hold : (d.placed slots key value).pairs.take d.dataCount = d.pairs.take d.dataCount :=
    List.take_set_of_le (Nat.le_refl _)
  change (d.placed slots key value).pairs.take (d.dataCount + 1) = _
  rw [List.take_add_one, hself, hold]
  rfl

theorem Tidy.live_removed (h : d.Tidy) {index : Nat} {pairs : List DictPair}
    (hs : d.Shifted index pairs) (hi : index < d.dataCount) :
    (d.removed pairs index).live = d.live.eraseIdx index := by
  have hcount := h.count_le
  apply List.ext_getElem?
  intro j
  change (pairs.take (d.dataCount - 1))[j]? = _
  -- below the new count the pairs are those of the old list without the one at `index`
  by_cases hj : j < d.dataCount - 1
  · rw [List.getElem?_take_of_lt hj, hs.live hj, List.getElem?_eraseIdx]
    by_cases hji : j < index
    · rw [if_pos hji, if_pos hji, live_getElem? (by omega)]
    · rw [if_neg hji, if_neg hji, live_getElem? (by omega)]
  · have hlen : (d.live.eraseIdx index).length = d.dataCount - 1 := by
      have hlive : d.live.length = d.dataCount := by simp [live, hcount]
      rw [List.length_eraseIdx_of_lt (by omega), hlive]
    have hle := Nat.le_of_not_lt hj
    have htake : (pairs.take (d.dataCount - 1)).length ≤ j :=
      le_trans (List.length_take_le _ _) hle
    rw [List.getElem?_eq_none htake, List.getElem?_eq_none (hlen.trans_le hle)]

theorem Tidy.lt_length_of_not_full (h : d.Tidy) (hroom : ¬ d.full) :
    d.dataCount < d.pairs.length := by
  have hload : d.load ≤ d.dataAlloced := by
    simp only [load]
    omega
  rw [h.pairs_length]
  exact lt_of_lt_of_le (Nat.lt_of_not_le (d.full_iff.not.mp hroom)) hload

/-! ## What each operation does to the blobs -/

/-- A replaced value is no longer held, the new one is. -/
theorem held_changed {i : Nat} {key : Blob} {old : Option Blob} (value : Blob)
    (hi : i < d.dataCount) (hpair : d.pairs[i]? = some ⟨some key, old⟩) :
    (old.toList ++ (d.changed i key (some value)).held).Perm (d.held ++ [value]) := by
  have hlive : d.live[i]? = some ⟨some key, old⟩ := (live_getElem? hi).trans hpair
  have hlt : i < d.live.length := (List.getElem?_eq_some_iff.mp hlive).1
  have hbefore := flatMap_perm_eraseIdx DictPair.blobs hlive
  have hafter := flatMap_set_perm DictPair.blobs hlt ⟨some key, some value⟩
  -- both sides are the key, the two values, and the blobs of the other pairs
  refine List.perm_iff_count.mpr (fun b => ?_)
  have hb := hbefore.count_eq b
  have ha := hafter.count_eq b
  simp only [held, live_changed, DictPair.blobs, List.count_append] at ha hb ⊢
  simp only [Option.toList_some] at ha hb
  omega

theorem held_placed (h : d.dataCount < d.pairs.length) (slots : List UInt32) (key value : Blob) :
    (d.placed slots key (some value)).held = d.held ++ [key, value] := by
  rw [held, live_placed h, List.flatMap_append]
  rfl

/-- The blobs of a removed pair are no longer held. -/
theorem Tidy.held_removed (h : d.Tidy) {index : Nat} {pairs : List DictPair} {key : Blob}
    {value : Option Blob} (hs : d.Shifted index pairs) (hi : index < d.dataCount)
    (hpair : d.pairs[index]? = some ⟨some key, value⟩) :
    (key :: value.toList ++ (d.removed pairs index).held).Perm d.held := by
  have hlive : d.live[index]? = some ⟨some key, value⟩ := (live_getElem? hi).trans hpair
  rw [held, h.live_removed hs hi]
  exact (flatMap_perm_eraseIdx DictPair.blobs hlive).symm

/-- A resize holds the same blobs. -/
theorem Tidy.held_resized (h : d.Tidy) (hv : d.Valued) (hfull : d.full) (slots : List UInt32) :
    (d.resized slots).held = d.held := by
  rw [held, live, (h.samePairs_resized hv hfull slots).pairs_eq]
  rfl

theorem valued_changed (hv : d.Valued) (i : Nat) (key value : Blob) :
    (d.changed i key (some value)).Valued := by
  rw [valued_iff, live_changed]
  intro pair hmem
  rcases List.mem_or_eq_of_mem_set hmem with hmem | rfl
  · exact valued_iff.mp hv pair hmem
  · simp

theorem valued_placed (hv : d.Valued) (h : d.dataCount < d.pairs.length) (slots : List UInt32)
    (key value : Blob) : (d.placed slots key (some value)).Valued := by
  rw [valued_iff, live_placed h]
  intro pair hmem
  rcases List.mem_append.mp hmem with hmem | hmem
  · exact valued_iff.mp hv pair hmem
  · simp [List.mem_singleton.mp hmem]

theorem Tidy.valued_removed (h : d.Tidy) (hv : d.Valued) {index : Nat} {pairs : List DictPair}
    (hs : d.Shifted index pairs) (hi : index < d.dataCount) : (d.removed pairs index).Valued := by
  rw [valued_iff, h.live_removed hs hi]
  intro pair hmem
  exact valued_iff.mp hv pair (List.mem_of_mem_eraseIdx hmem)

theorem Tidy.valued_resized (h : d.Tidy) (hv : d.Valued) (hfull : d.full) (slots : List UInt32) :
    (d.resized slots).Valued := by
  rw [valued_iff, live, (h.samePairs_resized hv hfull slots).pairs_eq]
  exact valued_iff.mp hv

/-! ## `KH_ReleaseDict` -/

theorem releasePairs_eq (h : d.dataCount ≤ d.pairs.length) :
    ∀ fuel i, i + fuel = d.dataCount →
      releasePairs d fuel i = .ok ((d.live.drop i).flatMap DictPair.blobs) := by
  have hlen : d.live.length = d.dataCount := by simp [live, h]
  -- induction on the pairs left
  intro fuel
  induction fuel with
  | zero =>
      intro i hi
      have hdrop : d.live.drop i = [] := List.drop_eq_nil_of_le (by omega)
      rw [hdrop]
      rfl
  | succ fuel ih =>
      intro i hi
      have hlt : i < d.live.length := by omega
      have hpair : d.pairs[i]? = some d.live[i] :=
        (live_getElem? (by omega)).symm.trans (List.getElem?_eq_getElem hlt)
      rw [releasePairs, readAt_eq_ok.mpr hpair, Fallible.ok_bind, ih (i + 1) (by omega),
        ← List.getElem_cons_drop hlt, List.flatMap_cons]
      rfl

/-- `KH_ReleaseDict` frees what the pairs in use refer to. -/
theorem Tidy.releaseDict_eq (h : d.Tidy) : releaseDict d = .ok d.held :=
  releasePairs_eq h.count_le d.dataCount 0 (Nat.zero_add _)

end Dict

/-! ## Sequences of calls -/

/-- A call; its blobs are made by `KH_CreateBlob` for the call. -/
inductive BlobCall where
  | set (alloc : TableAlloc) (key value : Bytes)
  | get (key : Bytes)
  | has (key : Bytes)
  | delete (key : Bytes)

/-- A dictionary, the number of blobs made for it, and the blobs that were released. -/
structure Ledger where
  dict : Dict
  blocks : Nat
  released : List Blob

/-- The books after a call that made `n` blobs. -/
def Ledger.after {α : Type} (l : Ledger) (n : Nat) (o : Outcome α) : Ledger :=
  ⟨o.dict, l.blocks + n, l.released ++ o.released⟩

def ledgerStep (l : Ledger) : BlobCall → Fallible Ledger
  | .set alloc key value => do
      let o ← dictSet alloc l.dict (.ofBytes l.blocks key) (some (.ofBytes (l.blocks + 1) value))
      return l.after 2 o
  | .get key => do
      let o ← dictGet l.dict (.ofBytes l.blocks key)
      return l.after 1 o
  | .has key => do
      let o ← dictHas l.dict (.ofBytes l.blocks key)
      return l.after 1 o
  | .delete key => do
      let o ← dictDelete l.dict (.ofBytes l.blocks key)
      return l.after 1 o

/-- The component that shows its books after every call. -/
def ledgerMachine : Machine Ledger BlobCall Ledger where
  init := ⟨createDict, 0, []⟩
  step := fun l c => do
    let l ← ledgerStep l c
    return (l, l)

/-- No blob was released twice, those not released are held by exactly one reference, and
`KH_ReleaseDict` would leave none. -/
structure Ledger.Exact (l : Ledger) : Prop where
  released_once : (l.released.map Blob.id).Nodup
  held_once : (l.dict.held.map Blob.id).Nodup
  unreleased : ∀ id, id ∈ l.dict.held.map Blob.id ↔
    id < l.blocks ∧ id ∉ l.released.map Blob.id
  drained : ∃ freed, releaseDict l.dict = .ok freed ∧
    ((l.released ++ freed).map Blob.id).Perm (List.range l.blocks)

/-- A set of a new key for which the table has to grow and cannot. -/
def BlobCall.Refused (l : Ledger) : BlobCall → Prop
  | .set alloc key _ => dictLookupIndex l.dict (.ofBytes l.blocks key) = .ok none ∧ l.dict.full ∧
      alloc.grants l.dict.newSize = false
  | _ => False

instance (l : Ledger) : (c : BlobCall) → Decidable (c.Refused l)
  | .set _ _ _ => inferInstanceAs (Decidable (_ ∧ _ ∧ _))
  | .get _ => inferInstanceAs (Decidable False)
  | .has _ => inferInstanceAs (Decidable False)
  | .delete _ => inferInstanceAs (Decidable False)

/-- What is released or held is what was made, each blob once. -/
structure Ledger.Balanced (l : Ledger) : Prop where
  safe : l.dict.Safe
  valued : l.dict.Valued
  perm : ((l.released ++ l.dict.held).map Blob.id).Perm (List.range l.blocks)

namespace Ledger

variable {l : Ledger}

theorem Balanced.exact (h : l.Balanced) : l.Exact := by
  have hnodup : ((l.released ++ l.dict.held).map Blob.id).Nodup :=
    h.perm.nodup_iff.mpr List.nodup_range
  have hmem : ∀ id, id ∈ l.released.map Blob.id ∨ id ∈ l.dict.held.map Blob.id ↔
      id < l.blocks := by
    intro id
    rw [← List.mem_append, ← List.map_append, h.perm.mem_iff, List.mem_range]
  rw [List.map_append] at hnodup
  rcases List.nodup_append.mp hnodup with ⟨hreleased, hheld, hdisjoint⟩
  constructor
  · exact hreleased
  · exact hheld
  · intro id
    constructor
    · intro hid
      exact ⟨(hmem id).mp (Or.inr hid), fun hrel => hdisjoint id hrel id hid rfl⟩
    · rintro ⟨hlt, hrel⟩
      exact ((hmem id).mpr hlt).resolve_left hrel
  · exact ⟨l.dict.held, h.safe.tidy.releaseDict_eq, h.perm⟩

/-- A call that releases or stores its blobs keeps the balance. -/
theorem Balanced.after {α : Type} {o : Outcome α} (h : l.Balanced) (arguments : List Blob)
    (hsafe : o.dict.Safe) (hvalued : o.dict.Valued)
    (hargs : arguments.map Blob.id = (List.range arguments.length).map (l.blocks + ·))
    (hkept : (o.released ++ o.dict.held).Perm (l.dict.held ++ arguments)) :
    (l.after arguments.length o).Balanced where
  safe := hsafe
  valued := hvalued
  perm := by
    change ((l.released ++ o.released ++ o.dict.held).map Blob.id).Perm
      (List.range (l.blocks + arguments.length))
    have hsum : ((l.released ++ l.dict.held).map Blob.id ++ arguments.map Blob.id).Perm
        (List.range l.blocks ++ (List.range arguments.length).map (l.blocks + ·)) := by
      rw [hargs]
      exact h.perm.append_right _
    rw [List.range_add]
    refine List.Perm.trans ?_ hsum
    rw [← List.map_append, List.append_assoc, List.append_assoc]
    exact (hkept.append_left _).map _

/-- A set that is not refused stores or releases the key, the value and what it replaces. -/
theorem Balanced.set (h : l.Balanced) (hcount : l.dict.dataCount < 2 ^ 32) {alloc : TableAlloc}
    {key value : Bytes} (hc : ¬ (BlobCall.set alloc key value).Refused l) :
    ∃ l', ledgerStep l (.set alloc key value) = .ok l' ∧ l'.Balanced := by
  have htidy := h.safe.tidy
  let keyBlob := Blob.ofBytes l.blocks key
  let valueBlob := Blob.ofBytes (l.blocks + 1) value
  -- a call that keeps its two blobs somewhere
  have hafter : ∀ o : Outcome Bool, dictSet alloc l.dict keyBlob (some valueBlob) = .ok o →
      o.dict.Safe → o.dict.Valued →
      (o.released ++ o.dict.held).Perm (l.dict.held ++ [keyBlob, valueBlob]) →
      ∃ l', ledgerStep l (.set alloc key value) = .ok l' ∧ l'.Balanced := by
    intro o ho hsafe hvalued hkept
    refine ⟨l.after 2 o, ?_, h.after [keyBlob, valueBlob] hsafe hvalued rfl hkept⟩
    exact congrArg (· >>= fun o => pure (l.after 2 o)) ho
  rcases h.safe.dictLookupIndex_safe keyBlob with ⟨r, hr, hsound⟩
  cases r with
  | none =>
      rcases h.safe.dictInsert_safe hcount alloc keyBlob (some valueBlob) with
        ⟨d', ok, hins, how, hsafe, _⟩
      have hset : dictSet alloc l.dict keyBlob (some valueBlob) = .ok ⟨d', [], ok⟩ := by
        simp [dictSet, hr, hins]
      -- they go into a pair behind the others, in the old table or in a larger one
      cases how with
      | refused full denied => exact absurd ⟨hr, full, denied⟩ hc
      | placed room slots =>
          have hlt := htidy.lt_length_of_not_full room
          refine hafter _ hset hsafe (Dict.valued_placed h.valued hlt slots _ _) ?_
          simp only [Dict.held_placed hlt, List.nil_append, List.Perm.refl]
      | grown full granted slots slots' =>
          have hlt := (htidy.resized_tidy full slots).lt_length_of_not_full
            (htidy.not_full_resized full slots)
          refine hafter _ hset hsafe
            (Dict.valued_placed (htidy.valued_resized h.valued full slots) hlt slots' _ _) ?_
          simp only [Dict.held_placed hlt, htidy.held_resized h.valued full, List.nil_append,
            List.Perm.refl]
  | some j =>
      rcases hsound j rfl with ⟨hj, other, hother, _⟩
      rcases h.safe.pair_of_key hj hother with ⟨old, hpair⟩
      have hset : dictSet alloc l.dict keyBlob (some valueBlob) =
          .ok ⟨l.dict.changed j other (some valueBlob), old.toList ++ [keyBlob], true⟩ := by
        simp [dictSet, hr, Dict.dictChange_eq (some valueBlob) hpair]
      -- the old value and the key are released, the new value is stored
      refine hafter _ hset (h.safe.changed_safe _ hj hpair) (Dict.valued_changed h.valued _ _ _) ?_
      refine List.perm_iff_count.mpr (fun b => ?_)
      have hcounts := (Dict.held_changed valueBlob hj hpair).count_eq b
      simp only [List.count_append, List.count_cons, List.count_nil] at hcounts ⊢
      omega

/-- A lookup releases its key. -/
theorem Balanced.lookup {α : Type} (h : l.Balanced) (key : Bytes) (result : α) :
    (l.after 1 ⟨l.dict, [.ofBytes l.blocks key], result⟩).Balanced :=
  h.after [.ofBytes l.blocks key] h.safe h.valued rfl List.perm_append_comm

theorem Balanced.delete (h : l.Balanced) (key : Bytes) :
    ∃ l', ledgerStep l (.delete key) = .ok l' ∧ l'.Balanced := by
  have htidy := h.safe.tidy
  rcases h.safe.dictLookupIndex_safe (.ofBytes l.blocks key) with ⟨r, hr, hsound⟩
  cases r with
  | none =>
      refine ⟨_, ?_, h.lookup key false⟩
      simp [ledgerStep, dictDelete, hr]
  | some j =>
      rcases hsound j rfl with ⟨hj, other, hother, _⟩
      rcases h.safe.pair_of_key hj hother with ⟨old, hpair⟩
      rcases htidy.dictRemove_eq hpair with ⟨pairs, hremove, hshift⟩
      have hstep : ledgerStep l (.delete key) = .ok (l.after 1 (⟨l.dict.removed pairs j,
          other :: old.toList ++ [.ofBytes l.blocks key], true⟩ : Outcome Bool)) := by
        simp [ledgerStep, dictDelete, hr, hremove]
      -- the removed pair and the key are released
      refine ⟨_, hstep, h.after [.ofBytes l.blocks key] (h.safe.removed_safe hj hshift)
        (htidy.valued_removed h.valued hshift hj) rfl ?_⟩
      refine List.perm_iff_count.mpr (fun b => ?_)
      have hcounts := (htidy.held_removed hshift hj hpair).count_eq b
      simp only [List.count_append] at hcounts ⊢
      omega

theorem Balanced.step (h : l.Balanced) (hcount : l.dict.dataCount < 2 ^ 32) {c : BlobCall}
    (hc : ¬ c.Refused l) : ∃ l', ledgerStep l c = .ok l' ∧ l'.Balanced := by
  cases c with
  | set alloc key value => exact h.set hcount hc
  | get key =>
      rcases h.safe.dictLookupIndex_safe (.ofBytes l.blocks key) with ⟨r, hr, hsound⟩
      cases r with
      | none =>
          refine ⟨_, ?_, h.lookup key (none : Option Blob)⟩
          simp [ledgerStep, dictGet, hr]
      | some j =>
          rcases hsound j rfl with ⟨hj, other, hother, _⟩
          rcases h.safe.pair_of_key hj hother with ⟨value, hpair⟩
          refine ⟨_, ?_, h.lookup key value⟩
          simp [ledgerStep, dictGet, hr, readAt_eq_ok.mpr hpair]
  | has key =>
      rcases h.safe.dictLookupIndex_safe (.ofBytes l.blocks key) with ⟨r, hr, _⟩
      refine ⟨_, ?_, h.lookup key r.isSome⟩
      simp [ledgerStep, dictHas, hr]
  | delete key => exact h.delete key

/-- A set that is refused forgets its key and its value. -/
theorem Balanced.not_exact (h : l.Balanced) {c : BlobCall} (hc : c.Refused l) {l' : Ledger}
    (hstep : ledgerStep l c = .ok l') : ¬ l'.Exact := by
  cases c with
  | get key => exact absurd hc id
  | has key => exact absurd hc id
  | delete key => exact absurd hc id
  | set alloc key value =>
      rcases hc with ⟨hr, hfull, hdenied⟩
      have hrefused : ledgerStep l (.set alloc key value) =
          .ok ⟨l.dict, l.blocks + 2, l.released⟩ := by
        simp [ledgerStep, dictSet, hr, dictInsert, hfull, resizeDict, hdenied, Ledger.after]
      rw [hrefused] at hstep
      cases hstep
      intro hexact
      -- the key was neither released nor stored
      have hmade : ∀ id ∈ (l.released ++ l.dict.held).map Blob.id, id < l.blocks := by
        intro id hid
        exact List.mem_range.mp (h.perm.mem_iff.mp hid)
      have hreleased : l.blocks ∉ l.released.map Blob.id := by
        intro hid
        rw [List.map_append] at hmade
        exact Nat.lt_irrefl _ (hmade _ (List.mem_append_left _ hid))
      have hheld := (hexact.unreleased l.blocks).mpr ⟨Nat.lt_add_of_pos_right (by decide), hreleased⟩
      rw [List.map_append] at hmade
      exact Nat.lt_irrefl _ (hmade _ (List.mem_append_right _ hheld))

end Ledger

theorem balanced_init : ledgerMachine.init.Balanced where
  safe := createDict_safe
  valued := by
    intro i pair hi
    cases hi
  perm := List.Perm.refl _

/-- While a dictionary holds fewer than `2 ^ 32` pairs, its books are right after every call of a
run exactly when no set of the run is refused. -/
theorem blobs_exact_iff (calls : List BlobCall)
    (hpairs : ledgerMachine.Along (fun l _ => l.dict.dataCount < 2 ^ 32) ledgerMachine.init calls) :
    (∃ l states, ledgerMachine.run calls = .ok (l, states) ∧ ∀ s ∈ states, s.Exact) ↔
      ledgerMachine.Along (fun l c => ¬ c.Refused l) ledgerMachine.init calls := by
  have hstep : ∀ l c l' o, ledgerMachine.step l c = .ok (l', o) → ledgerStep l c = .ok o := by
    intro l c l' o h
    rcases Fallible.bind_eq_ok.mp h with ⟨l₁, hl₁, heq⟩
    cases heq
    exact hl₁
  refine Machine.runFrom_outputs_iff (I := Ledger.Balanced) ?_ ?_ calls _ balanced_init hpairs
  · intro l c h hcount hc
    rcases h.step hcount hc with ⟨l', hl', hbalanced⟩
    exact ⟨l', l', by simp [ledgerMachine, hl'], hbalanced, hbalanced.exact⟩
  · intro l c h _ hc l' o ho
    exact h.not_exact (not_not.mp hc) (hstep l c l' o ho)

/-- A set, one that replaces its value, and a deletion. -/
theorem blobs_exact_replaced :
    ∃ l states, ledgerMachine.run
        [.set .always [1] [10], .set .always [1] [11], .delete [1]] = .ok (l, states) ∧
      ∀ s ∈ states, s.Exact :=
  (blobs_exact_iff [.set .always [1] [10], .set .always [1] [11], .delete [1]]
    (by decide +kernel)).mpr (by decide +kernel)

/-- The first set of a process without memory: neither the key nor the value is released. -/
theorem blobs_not_exact :
    ledgerMachine.run [.set (.upTo 0) [1] [10]] =
        .ok (⟨createDict, 2, []⟩, [⟨createDict, 2, []⟩]) ∧
      ¬ ∃ l states, ledgerMachine.run [.set (.upTo 0) [1] [10]] = .ok (l, states) ∧
        ∀ s ∈ states, s.Exact := by
  have hrun : ledgerMachine.run [.set (.upTo 0) [1] [10]] =
      .ok (⟨createDict, 2, []⟩, [⟨createDict, 2, []⟩]) := rfl
  refine ⟨hrun, ?_⟩
  rintro ⟨l, states, hok, hall⟩
  rw [hrun] at hok
  cases hok
  -- blob 0 was made and is not released, but no pair refers to it
  have hkey := ((hall _ List.mem_cons_self).unreleased 0).mpr ⟨by decide, by simp⟩
  simp [Dict.held, Dict.live, createDict] at hkey

end HashTable
end KnShim
