import KnShim.Database.Persistent
import KnShim.HashTable.Growth

/-!
# RoundTrip — what `SaveDict` writes is what `LoadDict` reads

The format is read by a loop that sets one record after the other, so a file decodes to the fold of
insert-or-replace over its records (`Decodes`).  A dictionary that is saved and loaded comes back as
it was, and is saved as the same bytes (`Survives`).

On tables of at most `2 ^ 32` slots both hold of exactly the dictionaries without a `NULL` value
(`loadDict_decodes_iff`).  `SaveDict` dereferences such a value, which `knDbSet` stores when there is
no memory for it (`loadDict_not_decodes`), and `KH_ResizeDict` takes it for the end of the data.
-/

namespace KnShim
namespace Database

open Lib HashTable

/-! ## The fold -/

/-- Insert a record behind the others, or replace the value of its key where it stands. -/
def insertOrReplace (entries : List (Bytes × Bytes)) (record : Bytes × Bytes) :
    List (Bytes × Bytes) :=
  if record.1 ∈ entries.map Prod.fst then
    entries.map (fun e => if e.1 = record.1 then record else e)
  else
    entries ++ [record]

theorem put_entries (m : OrderedMap Bytes Bytes) (record : Bytes × Bytes) :
    (m.put record.1 record.2).entries = insertOrReplace m.entries record := by
  by_cases h : record.1 ∈ m.keys
  · have hmem : record.1 ∈ m.entries.map Prod.fst := h
    rw [insertOrReplace, if_pos hmem, OrderedMap.put, dif_pos h]
    rfl
  · have hmem : record.1 ∉ m.entries.map Prod.fst := h
    rw [insertOrReplace, if_neg hmem, OrderedMap.put_entries_of_not_mem _ h]

theorem putAll_entries (m : OrderedMap Bytes Bytes) (records : List (Bytes × Bytes)) :
    (m.putAll records).entries = records.foldl insertOrReplace m.entries := by
  induction records generalizing m with
  | nil => rfl
  | cons record records ih => rw [OrderedMap.putAll_cons, ih, put_entries, List.foldl_cons]

/-! ## Dictionaries as ordered maps -/

variable {d : Dict}

/-- A dictionary without `NULL` values represents the map of its entries. -/
theorem exists_represents (h : d.WellFormed) (hv : d.Valued) :
    ∃ m, Represents d m ∧ m.entries = liveEntries d := by
  have hwhole := wellFormed_whole h hv
  have hnodup : ((liveEntries d).map Prod.fst).Nodup := by
    rw [List.nodup_iff_getElem?_ne_getElem?]
    intro i j hij hj heq
    rw [List.length_map, hwhole.length_eq] at hj
    have hi : i < d.dataCount := lt_trans hij hj
    rcases hwhole.pair hi with ⟨key, value, hpair, hentry⟩
    rcases hwhole.pair hj with ⟨key', value', hpair', hentry'⟩
    rw [List.getElem?_map, List.getElem?_map, hentry, hentry'] at heq
    have hdata : key.data = key'.data := by simpa using heq
    -- two pairs in use have different keys
    have hsame := h.distinct i j key key' hi hj (keyOf_of_pair hpair) (keyOf_of_pair hpair') hdata
    exact absurd hsame (Nat.ne_of_lt hij)
  refine ⟨⟨liveEntries d, hnodup⟩, ⟨h, hwhole.length_eq, ?_⟩, rfl⟩
  intro i k v hi
  have hlt : i < d.dataCount := by
    rw [← hwhole.length_eq]
    exact (List.getElem?_eq_some_iff.mp hi).1
  rcases hwhole.pair hlt with ⟨key, value, hpair, hentry⟩
  have hkv : (key.data, value.data) = (k, v) := Option.some.inj (hentry.symm.trans hi)
  simp only [Prod.mk.injEq] at hkv
  exact ⟨key, value, hpair, hkv.1, hkv.2⟩

/-! ## Decoding -/

/-- The lengths of the records and their number fit their fields. -/
def Encodable (records : List (Bytes × Bytes)) : Prop :=
  records.length < 2 ^ 32 ∧ ∀ e ∈ records, Fits e

/-- Loading the records sets them one after the other. -/
def Decodes (d : Dict) (records : List (Bytes × Bytes)) : Prop :=
  ∀ id, ∃ o, loadDict (.roomy .always) d id (some (serialize records)) = .ok o ∧ o.result = true ∧
    liveEntries o.dict = records.foldl insertOrReplace (liveEntries d)

theorem decodes (h : d.WellFormed) (hv : d.Valued) {records : List (Bytes × Bytes)}
    (hrecords : Encodable records)
    (hsize : (records.foldl insertOrReplace (liveEntries d)).length ≤ maxPairs) :
    Decodes d records := by
  intro id
  rcases exists_represents h hv with ⟨m, hrep, hm⟩
  rw [← hm, ← putAll_entries] at hsize
  rcases loadDict_represents hrep records hrecords.1 hrecords.2 hsize id with ⟨o, ho, hres, hrep'⟩
  refine ⟨o, ho, hres, ?_⟩
  rw [represents_liveEntries hrep', putAll_entries, hm]

/-! ## Saving and loading -/

/-- The bytes that `SaveDict` writes when nothing fails.  When a blob is empty they stay in the
temporary file. -/
def savedBytes (d : Dict) (path : Path) (w : World) : Option Bytes :=
  match saveDict d path .smooth w with
  | (.ok true, w') => w'.files path
  | (.ok false, w') => w'.files (path ++ newSuffix)
  | (.error _, _) => none

/-- What is saved can be loaded into a fresh dictionary, which is then saved as the same bytes. -/
def Survives (d : Dict) : Prop :=
  ∀ path w id path' w', ∃ bytes o, savedBytes d path w = some bytes ∧
    loadDict (.roomy .always) createDict id (some bytes) = .ok o ∧
    liveEntries o.dict = liveEntries d ∧ savedBytes o.dict path' w' = some bytes

theorem savedBytes_represents {m : OrderedMap Bytes Bytes} (h : Represents d m) (path : Path)
    (w : World) : savedBytes d path w = some (serialize m.entries) := by
  -- an empty blob decides which of the two files is left
  by_cases hne : NoneEmpty m.entries
  · rcases saveDict_smooth path w h hne with ⟨w', hsave, hfile⟩
    rw [savedBytes, hsave]
    exact hfile
  · rcases saveDict_smooth_empty path w h hne with ⟨w', hsave, hfile⟩
    rw [savedBytes, hsave]
    exact hfile

theorem survives (h : d.WellFormed) (hv : d.Valued) (hfits : ∀ e ∈ liveEntries d, Fits e)
    (hsize : (liveEntries d).length ≤ maxPairs) : Survives d := by
  intro path w id path' w'
  rcases exists_represents h hv with ⟨m, hrep, hm⟩
  rw [← hm] at hfits hsize
  rcases loadDict_serialize hfits hsize id with ⟨o, ho, hrep'⟩
  refine ⟨serialize m.entries, o, savedBytes_represents hrep path w, ho, ?_,
    savedBytes_represents hrep' path' w'⟩
  rw [represents_liveEntries hrep', represents_liveEntries hrep]

/-- When no file operation fails, only a pair with a `NULL` stops `SaveDict`. -/
theorem whole_of_saveDict {path : Path} {w w' : World} {saved : Bool}
    (hsave : saveDict d path .smooth w = (.ok saved, w')) : Whole d := by
  rcases Proc.bind_eq_ok.mp hsave with ⟨granted, w₁, hgranted, hsave⟩
  rw [Proc.malloc_done rfl] at hgranted
  cases hgranted
  rcases Proc.bind_eq_ok.mp hsave with ⟨file, w₂, hopen, hsave⟩
  rw [Proc.fopenWrite_done _ rfl] at hopen
  cases hopen
  rcases Proc.bind_eq_ok.mp hsave with ⟨r, w₃, hwrite, _⟩
  exact writeDict_whole hwrite

theorem Survives.whole (h : Survives d) : Whole d := by
  rcases h [] ⟨fun _ => none, 0⟩ 0 [] ⟨fun _ => none, 0⟩ with ⟨bytes, _, hsaved, _⟩
  rw [savedBytes] at hsaved
  rcases hsave : saveDict d [] .smooth ⟨fun _ => none, 0⟩ with ⟨_ | saved, w'⟩
  · rw [hsave] at hsaved
    cases hsaved
  · exact whole_of_saveDict hsave

theorem Whole.allValued (h : Whole d) : d.Valued :=
  Dict.valued_iff.mpr (fun pair hmem => (h.valued pair hmem).2)

/-- A table of at most `2 ^ 32` slots holds at most `maxPairs` pairs. -/
theorem count_le_maxPairs (h : d.WellFormed) : d.dataCount ≤ maxPairs := by
  calc
    d.dataCount ≤ d.load := h.toSafe.load_le
    _ = d.dataAlloced / 2 + d.dataAlloced / 8 := rfl
    _ ≤ 2 ^ 32 / 2 + 2 ^ 32 / 8 :=
        Nat.add_le_add (Nat.div_le_div_right h.alloced_le) (Nat.div_le_div_right h.alloced_le)
    _ = maxPairs := rfl

/-- For a reachable dictionary on a table of at most `2 ^ 32` slots: loading records is the fold of
insert-or-replace, and saving and loading is the identity, exactly when it holds no `NULL` value. -/
theorem loadDict_decodes_iff {calls : List DictCall} {d : Dict} {answers : List DictAnswer}
    (hrun : dictMachine.run calls = .ok (d, answers)) (hslots : d.dataAlloced ≤ 2 ^ 32)
    (hfits : ∀ e ∈ liveEntries d, Fits e) :
    ((∀ records, Encodable records →
        (records.foldl insertOrReplace (liveEntries d)).length ≤ maxPairs → Decodes d records) ∧
      Survives d) ↔ d.Valued := by
  have h : d.WellFormed := dict_run_wellFormed hrun hslots
  constructor
  · intro hboth
    exact hboth.2.whole.allValued
  · intro hv
    have hlen : (liveEntries d).length ≤ maxPairs := by
      rw [(wellFormed_whole h hv).length_eq]
      exact count_le_maxPairs h
    exact ⟨fun records hrecords hsize => decodes h hv hrecords hsize, survives h hv hfits hlen⟩

/-- Two keys, one of which is set twice, and an empty one; then records that repeat keys. -/
theorem loadDict_decodes_iff_repeated :
    let calls : List DictCall :=
      [.set .always (.ofBytes 0 [1]) (some (.ofBytes 1 [10, 11])),
        .set .always (.ofBytes 2 []) (some (.ofBytes 3 [20])),
        .set .always (.ofBytes 4 [1]) (some (.ofBytes 5 [12]))]
    let records : List (Bytes × Bytes) := [([2], [30, 31]), ([1], []), ([2], [32])]
    ∃ d answers, dictMachine.run calls = .ok (d, answers) ∧
      liveEntries d = [([1], [12]), ([], [20])] ∧ Decodes d records ∧
      records.foldl insertOrReplace (liveEntries d) = [([1], []), ([], [20]), ([2], [32])] ∧
      Survives d := by
  intro calls records
  have hrun : (dictMachine.run calls).toOption.any (fun r => decide (r.1.Valued ∧
      r.1.dataAlloced ≤ 2 ^ 32 ∧ liveEntries r.1 = [([1], [12]), ([], [20])])) = true := by
    decide +kernel
  rcases Fallible.exists_ok_of_any hrun with ⟨⟨d, answers⟩, hok, hd⟩
  rcases of_decide_eq_true hd with ⟨hv, hslots, hlive⟩
  have hfits : ∀ e ∈ liveEntries d, Fits e := by
    rw [hlive]
    simp [Fits]
  have hfold : records.foldl insertOrReplace (liveEntries d) =
      [([1], []), ([], [20]), ([2], [32])] := by
    rw [hlive]
    decide
  rcases (loadDict_decodes_iff hok hslots hfits).mpr hv with ⟨hdecodes, hsurvives⟩
  refine ⟨d, answers, hok, hlive, hdecodes records ⟨by decide, by simp [records, Fits]⟩ ?_, hfold,
    hsurvives⟩
  rw [hfold]
  decide

/-- `malloc` refuses a value of two bytes. -/
def Sample.tightHeap : Heap := ⟨fun _ => true, fun length => length ≠ 2, .always⟩

/-- `knDbSet` stores the `NULL` that `KH_CreateBlob` returns, and `SaveDict` dereferences it. -/
theorem loadDict_not_decodes :
    let calls : List DictCall := [.set .always (.ofBytes 0 [0x6b]) none]
    (∃ d answers, dictMachine.run calls = .ok (d, answers) ∧ ¬ Survives d) ∧
      (knDbSet Sample.tightHeap [0x64] .fresh [some [0x6b], some [0x76, 0x76]] .smooth
        ⟨fun _ => none, 0⟩).1 = .error .nullDeref := by
  intro calls
  have hrun : (dictMachine.run calls).toOption.any (fun r => decide (¬ r.1.Valued)) = true := by
    decide +kernel
  rcases Fallible.exists_ok_of_any hrun with ⟨⟨d, answers⟩, hok, hd⟩
  refine ⟨⟨d, answers, hok, fun hsurvives => ?_⟩, rfl⟩
  exact of_decide_eq_true hd hsurvives.whole.allValued

end Database
end KnShim
