import KnShim.HashTable.Calls

/-!
# Growth — what a dictionary holds when it grows

The copy loop of `KH_ResizeDict` takes the first pair with a `NULL` for the end of the data, and
`KH_DictRemove` leaves the pairs that it has moved or freed behind the count.  `Tidy` keeps the two
apart: what is behind the count is `NULL` again by the time the count comes to the load.

`Stepped` says once what a call can do to a tidy dictionary.  `Tidy` says nothing about the slots, so
every call keeps it on a table of any size, and `resizeDict_copies` concludes for every reachable
dictionary.
-/

namespace KnShim
namespace HashTable

open Lib

/-! ## What the loops return -/

/-- A lookup returns the index of a pair with a key. -/
theorem keyOf_of_lookupLoop {d : Dict} {key : Blob} {slotIndex j : Nat} :
    ∀ {fuel i : Nat}, lookupLoop d key slotIndex fuel i = .ok (some j) →
      ∃ other, keyOf d.pairs j = some other := by
  -- induction on the steps left; only the pair that is returned matters
  intro fuel
  induction fuel with
  | zero =>
      intro i h
      cases h
  | succ fuel ih =>
      intro i h
      rcases Fallible.bind_eq_ok.mp h with ⟨slot, _, h⟩
      by_cases he : slot = hashEmpty
      · rw [if_pos he] at h
        cases h
      rw [if_neg he] at h
      by_cases hd : slot = hashDeleted
      · rw [if_pos hd] at h
        exact ih h
      rw [if_neg hd] at h
      rcases Fallible.bind_eq_ok.mp h with ⟨pair, hpair, h⟩
      cases hkey : pair.key with
      | none =>
          simp only [hkey] at h
          cases h
      | some other =>
          simp only [hkey] at h
          by_cases heq : blobEqual key other = true
          · rw [if_pos heq] at h
            obtain rfl : slot.toNat = j := Option.some.inj (Except.ok.inj h)
            exact ⟨other, (keyOf_of_pair (readAt_eq_ok.mp hpair)).trans hkey⟩
          · rw [if_neg heq] at h
            exact ih h

theorem exists_pair_of_lookup {d : Dict} {key : Blob} {j : Nat}
    (h : dictLookupIndex d key = .ok (some j)) :
    ∃ other value, d.pairs[j]? = some ⟨some other, value⟩ := by
  rcases keyOf_of_lookupLoop h with ⟨other, hother⟩
  rcases Option.bind_eq_some_iff.mp hother with ⟨⟨key', value⟩, hpair, hkey⟩
  simp only at hkey
  subst hkey
  exact ⟨other, value, hpair⟩

/-- The copy loop leaves the live prefix of the old pairs, whatever becomes of the slots. -/
theorem resizeCopy_pairs {n : Nat} :
    ∀ {old pre : List DictPair} {slots slots' : List UInt32} {pairs : List DictPair} {j : Nat},
      resizeCopy n old slots (padTo n pre) pre.length = .ok (slots', pairs, j) →
      pairs = padTo n (pre ++ livePrefix old) ∧ j = (pre ++ livePrefix old).length := by
  intro old
  -- the loop stops at the first pair with a `NULL`, as the live prefix does
  induction old with
  | nil =>
      intro pre slots slots' pairs j h
      cases h
      simp [livePrefix]
  | cons pair rest ih =>
      intro pre slots slots' pairs j h
      rcases pair with ⟨_ | key, _ | value⟩
      · cases h
        simp [livePrefix, DictPair.live]
      · cases h
        simp [livePrefix, DictPair.live]
      · cases h
        simp [livePrefix, DictPair.live]
      · have hcat : pre ++ livePrefix (⟨some key, some value⟩ :: rest) =
            (pre ++ [⟨some key, some value⟩]) ++ livePrefix rest := by
          simp [livePrefix, DictPair.live]
        rcases Fallible.bind_eq_ok.mp h with ⟨pairs₁, hwrite, h⟩
        rcases Fallible.bind_eq_ok.mp h with ⟨slots₁, _, h⟩
        -- a pair that is written lies inside the new array
        have hlt : pre.length < n := by
          by_contra hge
          have hfull : padTo n pre = pre := by
            simp [padTo, Nat.sub_eq_zero_of_le (Nat.le_of_not_lt hge)]
          rw [hfull, writeAt, if_neg (Nat.lt_irrefl _)] at hwrite
          cases hwrite
        rw [writeAt_padTo _ hlt] at hwrite
        cases hwrite
        have hlen : pre.length + 1 =
            (pre ++ [(⟨some key, some value⟩ : DictPair)]).length := by simp
        rw [hlen] at h
        rw [hcat]
        exact ih h

theorem resizeDict_resized {alloc : TableAlloc} {d d' : Dict}
    (h : resizeDict alloc d = .ok (some d')) :
    alloc.grants d.newSize = true ∧ ∃ slots, d' = d.resized slots := by
  rw [resizeDict] at h
  by_cases hgrant : alloc.grants d.newSize = true
  · refine ⟨hgrant, ?_⟩
    rw [if_pos hgrant] at h
    rcases Fallible.bind_eq_ok.mp h with ⟨⟨slots, pairs, j⟩, hcopy, h⟩
    have hpad : List.replicate d.newSize DictPair.null = padTo d.newSize [] := by simp [padTo]
    rw [hpad] at hcopy
    rcases resizeCopy_pairs hcopy with ⟨rfl, rfl⟩
    cases h
    exact ⟨slots, rfl⟩
  · rw [if_neg hgrant] at h
    cases h

theorem dictPlace_placed {d d' : Dict} {key : Blob} {value : Option Blob}
    (h : dictPlace d key value = .ok d') : ∃ slots, d' = d.placed slots key value := by
  rcases Fallible.bind_eq_ok.mp h with ⟨pairs, hwrite, h⟩
  rcases Fallible.bind_eq_ok.mp h with ⟨slots, _, h⟩
  rw [writeAt] at hwrite
  by_cases hlt : d.dataCount < d.pairs.length
  · rw [if_pos hlt] at hwrite
    cases hwrite
    cases h
    exact ⟨slots, rfl⟩
  · rw [if_neg hlt] at hwrite
    cases hwrite

/-- An insertion that returns ends in one of the three ways. -/
theorem dictInsert_inserted {alloc : TableAlloc} {d d' : Dict} {key : Blob} {value : Option Blob}
    {ok : Bool} (h : dictInsert alloc d key value = .ok (d', ok)) :
    Dict.Inserted alloc d key value d' ok := by
  rw [dictInsert] at h
  by_cases hfull : d.full
  · rw [if_pos hfull] at h
    rcases Fallible.bind_eq_ok.mp h with ⟨resized, hres, h⟩
    cases resized with
    | none =>
        cases h
        refine .refused hfull ?_
        rw [← Bool.not_eq_true]
        -- a resize that is granted returns a dictionary
        intro hgrant
        rw [resizeDict, if_pos hgrant] at hres
        rcases Fallible.bind_eq_ok.mp hres with ⟨_, _, hres⟩
        cases hres
    | some resized =>
        rcases resizeDict_resized hres with ⟨hgrant, slots, rfl⟩
        rcases Fallible.bind_eq_ok.mp h with ⟨placed, hplace, h⟩
        rcases dictPlace_placed hplace with ⟨slots', rfl⟩
        cases h
        exact .grown hfull hgrant slots slots'
  · rw [if_neg hfull] at h
    rcases Fallible.bind_eq_ok.mp h with ⟨placed, hplace, h⟩
    rcases dictPlace_placed hplace with ⟨slots, rfl⟩
    cases h
    exact .placed hfull slots

/-! ## Every call keeps the pairs tidy -/

namespace Dict

variable {d d' : Dict}

/-- A resized table has room: the count stays, or falls to a `NULL` value, and the load grows. -/
theorem Tidy.not_full_resized (h : d.Tidy) (hfull : d.full) (slots : List UInt32) :
    ¬ (d.resized slots).full := by
  rw [full_iff, Nat.not_le]
  calc
    (d.resized slots).dataCount ≤ d.dataCount := h.livePrefix_length_le hfull
    _ ≤ d.load := h.load_le
    _ < (d.resized slots).load := d.load_lt_load_resized slots

theorem Inserted.tidy {alloc : TableAlloc} {key : Blob} {value : Option Blob} {ok : Bool}
    (h : d.Tidy) (how : Inserted alloc d key value d' ok) : d'.Tidy := by
  cases how with
  | refused full denied => exact h
  | placed room slots =>
      have hroom : d.dataCount < d.load := Nat.lt_of_not_le (d.full_iff.not.mp room)
      exact h.placed_tidy hroom slots key value
  | grown full granted slots slots' =>
      have hroom : (d.resized slots).dataCount < (d.resized slots).load :=
        Nat.lt_of_not_le ((full_iff _).not.mp (h.not_full_resized full slots))
      exact (h.resized_tidy full slots).placed_tidy hroom slots' key value

/-- A pair with a key lies before the load. -/
theorem Tidy.lt_load (h : d.Tidy) {j : Nat} {key : Blob} {value : Option Blob}
    (hpair : d.pairs[j]? = some ⟨some key, value⟩) : j < d.load := by
  by_contra hge
  have hlt : j < d.dataAlloced := by
    rw [← h.pairs_length]
    exact (List.getElem?_eq_some_iff.mp hpair).1
  rw [h.spare j (Nat.le_of_not_lt hge) hlt] at hpair
  simp [DictPair.null] at hpair

/-- What a call that returns can make of a tidy dictionary. -/
inductive Stepped (d : Dict) : Dict → Prop
  | same : Stepped d d
  | inserted {alloc : TableAlloc} {key : Blob} {value : Option Blob} {d' : Dict} {ok : Bool}
      (how : Inserted alloc d key value d' ok) : Stepped d d'
  | changed {j : Nat} {key : Blob} {old : Option Blob} (value : Option Blob)
      (pair_eq : d.pairs[j]? = some ⟨some key, old⟩) : Stepped d (d.changed j key value)
  | removed {j : Nat} {pairs : List DictPair} (shifted : d.Shifted j pairs) :
      Stepped d (d.removed pairs j)

theorem Stepped.tidy (h : d.Tidy) (hstep : Stepped d d') : d'.Tidy := by
  cases hstep with
  | same => exact h
  | inserted how => exact how.tidy h
  | changed value pair_eq => exact h.changed_tidy value (h.lt_load pair_eq) pair_eq
  | removed shifted => exact h.removed_tidy shifted

/-- Tables never shrink. -/
theorem Stepped.alloced_le (hstep : Stepped d d') : d.dataAlloced ≤ d'.dataAlloced := by
  cases hstep with
  | same => exact Nat.le_refl _
  | inserted how =>
      cases how with
      | refused _ _ => exact Nat.le_refl _
      | placed _ _ => exact Nat.le_refl _
      | grown _ _ _ _ => exact d.dataAlloced_lt_newSize.le
  | changed _ _ => exact Nat.le_refl _
  | removed _ => exact Nat.le_refl _

end Dict

theorem dictSet_stepped {alloc : TableAlloc} {d : Dict} {key : Blob} {value : Option Blob}
    {o : Outcome Bool} (hset : dictSet alloc d key value = .ok o) : d.Stepped o.dict := by
  rcases Fallible.bind_eq_ok.mp hset with ⟨index, hindex, hset⟩
  cases index with
  | none =>
      rcases Fallible.bind_eq_ok.mp hset with ⟨⟨d', ok⟩, hins, hset⟩
      cases hset
      exact .inserted (dictInsert_inserted hins)
  | some j =>
      rcases exists_pair_of_lookup hindex with ⟨other, old, hpair⟩
      rcases Fallible.bind_eq_ok.mp hset with ⟨r, hchange, hset⟩
      rw [Dict.dictChange_eq value hpair] at hchange
      cases hchange
      cases hset
      exact .changed value hpair

theorem dictDelete_stepped {d : Dict} {key : Blob} {o : Outcome Bool} (h : d.Tidy)
    (hdelete : dictDelete d key = .ok o) : d.Stepped o.dict := by
  rcases Fallible.bind_eq_ok.mp hdelete with ⟨index, hindex, hdelete⟩
  cases index with
  | none =>
      cases hdelete
      exact .same
  | some j =>
      rcases exists_pair_of_lookup hindex with ⟨other, value, hpair⟩
      rcases h.dictRemove_eq hpair with ⟨pairs, hremove, hshift⟩
      rcases Fallible.bind_eq_ok.mp hdelete with ⟨r, hr, hdelete⟩
      rw [hremove] at hr
      cases hr
      cases hdelete
      exact .removed hshift

/-- Lookups return the dictionary that they were given. -/
theorem dictStep_stepped {d d' : Dict} {c : DictCall} {a : DictAnswer} (h : d.Tidy)
    (hstep : dictStep d c = .ok (d', a)) : d.Stepped d' := by
  cases c with
  | set alloc key value =>
      rcases Fallible.bind_eq_ok.mp hstep with ⟨o, hset, hstep⟩
      cases hstep
      exact dictSet_stepped hset
  | get key =>
      rcases Fallible.bind_eq_ok.mp hstep with ⟨o, hget, hstep⟩
      cases hstep
      rcases Fallible.bind_eq_ok.mp hget with ⟨index, _, hget⟩
      cases index with
      | none =>
          cases hget
          exact .same
      | some j =>
          rcases Fallible.bind_eq_ok.mp hget with ⟨pair, _, hget⟩
          cases hget
          exact .same
  | has key =>
      rcases Fallible.bind_eq_ok.mp hstep with ⟨o, hhas, hstep⟩
      cases hstep
      rcases Fallible.bind_eq_ok.mp hhas with ⟨index, _, hhas⟩
      cases hhas
      exact .same
  | delete key =>
      rcases Fallible.bind_eq_ok.mp hstep with ⟨o, hdelete, hstep⟩
      cases hstep
      exact dictDelete_stepped h hdelete
  | len =>
      cases hstep
      exact .same
  | keyIter index =>
      rcases Fallible.bind_eq_ok.mp hstep with ⟨blob, _, hstep⟩
      cases hstep
      exact .same
  | valueIter index =>
      rcases Fallible.bind_eq_ok.mp hstep with ⟨blob, _, hstep⟩
      cases hstep
      exact .same

theorem dict_run_tidy {calls : List DictCall} {d : Dict} {answers : List DictAnswer}
    (hrun : dictMachine.run calls = .ok (d, answers)) : d.Tidy :=
  Machine.runFrom_keeps (M := dictMachine) (fun _ _ _ _ h hstep => (dictStep_stepped h hstep).tidy h)
    calls createDict d answers createDict_safe.tidy hrun

/-! ## Tables of at most `2 ^ 32` slots -/

/-- A set that leaves a table of at most `2 ^ 32` slots keeps the invariant. -/
theorem dictSet_wellFormed_of_le {alloc : TableAlloc} {d : Dict} {key : Blob} {value : Option Blob}
    {o : Outcome Bool} (h : d.WellFormed) (hset : dictSet alloc d key value = .ok o)
    (hsize : o.dict.dataAlloced ≤ 2 ^ 32) : o.dict.WellFormed := by
  have hlimit : Dict.Found d key none → d.full → alloc.grants d.newSize = true →
      d.newSize ≤ 2 ^ 32 := by
    intro hnone hfull hgrant
    -- the key is not found, so the set has grown the table
    rcases h.dictLookupIndex_wellFormed key with ⟨r, hr, hfound⟩
    cases hfound with
    | here j other lt key_eq data_eq =>
        rcases hnone with _ | absent
        exact absurd data_eq (absent j other lt key_eq)
    | nowhere _ =>
        rcases Fallible.bind_eq_ok.mp hset with ⟨index, hindex, hset⟩
        rw [hr] at hindex
        cases hindex
        rcases Fallible.bind_eq_ok.mp hset with ⟨⟨d', ok⟩, hins, hset⟩
        cases hset
        cases dictInsert_inserted hins with
        | refused _ denied => exact absurd hgrant (by simp [denied])
        | placed room _ => exact absurd hfull room
        | grown _ _ _ _ => exact hsize
  rcases h.dictSet_wellFormed alloc key value hlimit with ⟨o', ho', _, hwf⟩
  obtain rfl : o' = o := Except.ok.inj (ho'.symm.trans hset)
  exact hwf

/-- Tables never shrink, so a reachable dictionary of at most `2 ^ 32` slots has never had more. -/
theorem dict_run_wellFormed {calls : List DictCall} {d : Dict} {answers : List DictAnswer}
    (hrun : dictMachine.run calls = .ok (d, answers)) (hsize : d.dataAlloced ≤ 2 ^ 32) :
    d.WellFormed := by
  have hkeeps : ∀ s c s' a, (s.Tidy ∧ (s.dataAlloced ≤ 2 ^ 32 → s.WellFormed)) →
      dictMachine.step s c = .ok (s', a) → s'.Tidy ∧ (s'.dataAlloced ≤ 2 ^ 32 → s'.WellFormed) := by
    rintro s c s' a ⟨htidy, hwf⟩ hstep
    have hstepped := dictStep_stepped htidy hstep
    refine ⟨hstepped.tidy htidy, fun hle => ?_⟩
    have h := hwf (le_trans hstepped.alloced_le hle)
    -- only a set can grow the table
    by_cases hset : ∃ alloc key value, c = .set alloc key value
    · rcases hset with ⟨alloc, key, value, rfl⟩
      rcases Fallible.bind_eq_ok.mp hstep with ⟨o, ho, hstep⟩
      cases hstep
      exact dictSet_wellFormed_of_le h ho hle
    · have hlimited : c.Limited := by
        cases c with
        | set alloc key value => exact absurd ⟨alloc, key, value, rfl⟩ hset
        | _ => trivial
      rcases dictStep_wellFormed h c hlimited with ⟨d', a', hd', hwf'⟩
      have hsame : (d', a') = (s', a) := Except.ok.inj (hd'.symm.trans hstep)
      cases hsame
      exact hwf'
  exact (Machine.runFrom_keeps (M := dictMachine) hkeeps calls createDict d answers
    ⟨createDict_safe.tidy, fun _ => createDict_wellFormed⟩ hrun).2 hsize

/-! ## The copy loop -/

namespace Dict

/-- The pairs in use are all there, and behind them there is nothing but zero pairs. -/
structure Gapless (d : Dict) : Prop where
  live : ∀ i < d.dataCount, ∃ key value, d.pairs[i]? = some ⟨some key, some value⟩
  null : ∀ i, d.dataCount ≤ i → i < d.dataAlloced → d.pairs[i]? = some DictPair.null

/-- The dictionary `d'` holds the pairs of `d`, in order, and nothing else. -/
structure SamePairs (d d' : Dict) : Prop where
  count_eq : d'.dataCount = d.dataCount
  pairs_eq : d'.pairs.take d'.dataCount = d.pairs.take d.dataCount
  gapless : d'.Gapless

variable {d : Dict}

/-- Among tidy dictionaries the load is met only by those without a stale pair. -/
theorem Tidy.gapless (h : d.Tidy) (hv : d.Valued) (hfull : d.full) : d.Gapless where
  live := by
    intro i hi
    rcases h.pair_of_lt hi with ⟨key, value, hpair⟩
    cases value with
    | none => exact absurd rfl (hv i _ hi hpair)
    | some value => exact ⟨key, value, hpair⟩
  null := by
    intro i hi hin
    exact h.spare i (le_trans (d.full_iff.mp hfull) hi) hin

theorem Tidy.samePairs_resized (h : d.Tidy) (hv : d.Valued) (hfull : d.full)
    (slots : List UInt32) : SamePairs d (d.resized slots) := by
  have hlen : (livePrefix d.pairs).length = d.dataCount := h.livePrefix_length_eq hfull hv
  have htake : d.pairs.take d.dataCount = livePrefix d.pairs := by
    rw [← hlen]
    exact (List.prefix_iff_eq_take.mp (List.takeWhile_prefix _)).symm
  refine ⟨hlen, ?_, ?_, ?_⟩
  · rw [htake]
    exact List.take_left' rfl
  · intro i hi
    rcases livePrefix_pair hi with ⟨key, value, hget, _⟩
    exact ⟨key, value, (resized_pair hi).trans hget⟩
  · intro i hi hin
    exact padTo_of_ge hi hin

/-- With room in the walk of `KH_InsertSlot` a granted resize returns. -/
theorem Tidy.resizeDict_returns (h : d.Tidy) (hfull : d.full) (hcount : d.dataCount ≤ 2 ^ 32)
    {alloc : TableAlloc} (hgrant : alloc.grants d.newSize = true) :
    ∃ d', resizeDict alloc d = .ok (some d') := by
  rcases h.newSize_eq with ⟨k, _, hN⟩
  have hle := h.livePrefix_length_le hfull
  have hload : d.load ≤ d.dataAlloced := by
    simp only [load]
    omega
  have hroom : (livePrefix d.pairs).length ≤ walkSize (2 ^ k) := by
    rw [walkSize, ← hN]
    refine le_min ?_ (le_trans hle hcount)
    calc
      (livePrefix d.pairs).length ≤ d.dataCount := hle
      _ ≤ d.load := h.load_le
      _ ≤ d.dataAlloced := hload
      _ ≤ d.newSize := d.dataAlloced_lt_newSize.le
  rcases resizeCopy_start d.pairs hroom with ⟨slots, hcopy, _⟩
  refine ⟨d.resized slots, ?_⟩
  rw [resizeDict, if_pos hgrant, hN, hcopy, Fallible.ok_bind, resized, hN]
  rfl

end Dict

/-- In every reachable dictionary whose load is met and whose values are there, the pairs in use
have no gap and nothing stale behind them.  So a resize carries over exactly these pairs, and up to
`2 ^ 32` of them it returns when its allocations are granted. -/
theorem resizeDict_copies {calls : List DictCall} {d : Dict} {answers : List DictAnswer}
    (hrun : dictMachine.run calls = .ok (d, answers)) (hv : d.Valued) (hfull : d.full) :
    d.Gapless ∧ (∀ alloc d', resizeDict alloc d = .ok (some d') → d.SamePairs d') ∧
      ∀ alloc : TableAlloc, alloc.grants d.newSize = true → d.dataCount ≤ 2 ^ 32 →
        ∃ d', resizeDict alloc d = .ok (some d') := by
  have h : d.Tidy := dict_run_tidy hrun
  refine ⟨h.gapless hv hfull, ?_, ?_⟩
  · intro alloc d' hres
    rcases resizeDict_resized hres with ⟨_, slots, rfl⟩
    exact h.samePairs_resized hv hfull slots
  · intro alloc hgrant hcount
    exact h.resizeDict_returns hfull hcount hgrant

/-- Five sets, a deletion, and a set that makes up for it: the table is full, and the pair that the
deletion left behind the count has been overwritten. -/
theorem resizeDict_copies_refilled :
    let calls : List DictCall :=
      [.set .always (.ofBytes 0 [0]) (some (.ofBytes 1 [])),
        .set .always (.ofBytes 2 [1]) (some (.ofBytes 3 [])),
        .set .always (.ofBytes 4 [2]) (some (.ofBytes 5 [])),
        .set .always (.ofBytes 6 [3]) (some (.ofBytes 7 [])),
        .set .always (.ofBytes 8 [4]) (some (.ofBytes 9 [])),
        .delete (.ofBytes 10 [2]),
        .set .always (.ofBytes 11 [5]) (some (.ofBytes 12 []))]
    ∃ d answers, dictMachine.run calls = .ok (d, answers) ∧ d.Gapless ∧
      (∀ alloc d', resizeDict alloc d = .ok (some d') → d.SamePairs d') ∧
      ∀ alloc : TableAlloc, alloc.grants d.newSize = true → d.dataCount ≤ 2 ^ 32 →
        ∃ d', resizeDict alloc d = .ok (some d') := by
  intro calls
  have hrun : (dictMachine.run calls).toOption.any
      (fun r => decide (r.1.Valued ∧ r.1.full)) = true := by decide +kernel
  rcases Fallible.exists_ok_of_any hrun with ⟨⟨d, answers⟩, hok, hd⟩
  rcases of_decide_eq_true hd with ⟨hv, hfull⟩
  exact ⟨d, answers, hok, resizeDict_copies hok hv hfull⟩

end HashTable
end KnShim
