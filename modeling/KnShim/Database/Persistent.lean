import KnShim.Database.Atomic
import KnShim.Database.LoadStream
import KnShim.HashTable.Ownership
import KnShim.HashTable.Refinement

/-!
# Persistent — the database functions over restarts of the game

`knDbSet`, `knDbGet`, `knDbHas` and `knDbDelete` work on the dictionary that `GetDB` loads when a
process first needs it, and write it out again after each change.  `dbMap` is what they are for: a
map that survives restarts.

`Holds` ties the file and the dictionary in memory to the map.  It is kept by every call except a
`knDbSet` of an empty key or value: `WriteData` takes the 0 that `fwrite` returns for an item of
size 0 for an error.  `db_answers_iff` says that a run is right exactly when it has no such call.
-/

namespace KnShim
namespace Database

open Lib HashTable

/-! ## The database functions -/

/-- A process: `gDatabase`, and the number of heap blocks given out for blobs. -/
structure Process where
  gDatabase : Option Dict
  blocks : Nat

/-- A process that has just been started. -/
def Process.fresh : Process := ⟨none, 0⟩

/-- What a function leaves on the Lua stack. -/
inductive LuaReturn where
  | nothing
  | nil
  | boolean (value : Bool)
  | string (value : Bytes)
  deriving DecidableEq, Repr

/-- `GetDB`; the block of `KH_CreateDict` is granted. -/
def getDB (heap : Heap) (gDatabasePath : Path) (self : Process) : Proc (Dict × Process) :=
  match self.gDatabase with
  | some dict => return (dict, self)
  | none => do
      let o ← loadDictStream heap createDict self.blocks gDatabasePath
      return (o.dict, ⟨some o.dict, self.blocks + o.created.length⟩)

/-- `knBufToBlob`. -/
def knBufToBlob (heap : Heap) (self : Process) (bytes : Bytes) :
    Proc (Option Blob × Process) := do
  let blob ← Proc.lift (createBlobIn heap self.blocks (some bytes) bytes.length)
  return (blob, { self with blocks := self.blocks + 1 })

/-- `knDbSet`, on what `lua_tolstring` makes of each argument. -/
def knDbSet (heap : Heap) (gDatabasePath : Path) (self : Process) :
    List (Option Bytes) → Proc (Process × LuaReturn)
  | some key :: some value :: _ => do
      let (dict, self) ← getDB heap gDatabasePath self
      let (key, self) ← knBufToBlob heap self key
      let (value, self) ← knBufToBlob heap self value
      let key ← Proc.lift (deref key)
      let o ← Proc.lift (dictSet heap.table dict key value)
      let self := { self with gDatabase := some o.dict }
      if o.result then
        let (dict, self) ← getDB heap gDatabasePath self
        let success ← saveDict dict gDatabasePath
        return (self, .boolean success)
      else
        return (self, .boolean false)
  | _ => return (self, .nil)

/-- `knDbGet`. -/
def knDbGet (heap : Heap) (gDatabasePath : Path) (self : Process) :
    List (Option Bytes) → Proc (Process × LuaReturn)
  | some key :: _ => do
      let (dict, self) ← getDB heap gDatabasePath self
      let (key, self) ← knBufToBlob heap self key
      let key ← Proc.lift (deref key)
      let o ← Proc.lift (dictGet dict key)
      match o.result with
      | none => return (self, .nil)
      | some value => return (self, .string value.data)
  | _ => return (self, .nil)

/-- `knDbHas`. -/
def knDbHas (heap : Heap) (gDatabasePath : Path) (self : Process) :
    List (Option Bytes) → Proc (Process × LuaReturn)
  | some key :: _ => do
      let (dict, self) ← getDB heap gDatabasePath self
      let (key, self) ← knBufToBlob heap self key
      let key ← Proc.lift (deref key)
      let o ← Proc.lift (dictHas dict key)
      return (self, .boolean o.result)
  | _ => return (self, .nil)

/-- `knDbDelete`. -/
def knDbDelete (heap : Heap) (gDatabasePath : Path) (self : Process) :
    List (Option Bytes) → Proc (Process × LuaReturn)
  | some key :: _ => do
      let (dict, self) ← getDB heap gDatabasePath self
      let (key, self) ← knBufToBlob heap self key
      let key ← Proc.lift (deref key)
      let o ← Proc.lift (dictDelete dict key)
      let self := { self with gDatabase := some o.dict }
      let (dict, self) ← getDB heap gDatabasePath self
      let saved ← saveDict dict gDatabasePath
      return (self, .boolean saved)
  | _ => return (self, .nothing)

/-! ## Runs -/

/-- A call from a script, or a restart of the game. -/
inductive DbCall where
  | set (key value : Bytes)
  | get (key : Bytes)
  | has (key : Bytes)
  | delete (key : Bytes)
  | restart

def dbProc (gDatabasePath : Path) (self : Process) : DbCall → Proc (Process × LuaReturn)
  | .set key value => knDbSet (.roomy .always) gDatabasePath self [some key, some value]
  | .get key => knDbGet (.roomy .always) gDatabasePath self [some key]
  | .has key => knDbHas (.roomy .always) gDatabasePath self [some key]
  | .delete key => knDbDelete (.roomy .always) gDatabasePath self [some key]
  | .restart => return (.fresh, .nothing)

/-- The game and its files when no allocation and no file operation fails; at first there is no
database file. -/
def dbMachine (gDatabasePath : Path) : Machine (Process × World) DbCall LuaReturn where
  init := (.fresh, ⟨fun _ => none, 0⟩)
  step := fun s c => do
    let ((self, answer), w) ← (dbProc gDatabasePath s.1 c).run .smooth s.2
    return ((self, w), answer)

/-- What the database is for: a map that does not notice restarts. -/
def dbMap : Spec (OrderedMap Bytes Bytes) DbCall LuaReturn where
  init := OrderedMap.empty
  step := fun m c =>
    match c with
    | .set key value => (m.put key value, .boolean true)
    | .get key => (m, (m.lookup key).elim .nil .string)
    | .has key => (m, .boolean (m.contains key))
    | .delete key => (m.erase key, .boolean true)
    | .restart => (m, .nothing)

/-- The number of pairs that fit into a table of `2 ^ 32` slots. -/
def maxPairs : Nat := 5 * 2 ^ 29

/-- The lengths fit their fields, and the number of pairs the table. -/
def DbCall.Bounded (m : OrderedMap Bytes Bytes) : DbCall → Prop
  | .set key value => Fits (key, value) ∧ (m.put key value).size ≤ maxPairs
  | _ => True

/-- Nothing empty is to be stored. -/
def DbCall.Storable : DbCall → Prop
  | .set key value => key ≠ [] ∧ value ≠ []
  | _ => True

/-! ## What a represented dictionary saves and loads -/

variable {d : Dict} {m : OrderedMap Bytes Bytes} {path : Path} {w : World}

/-- While the table has room for its pairs, `KH_DictSet` succeeds. -/
theorem dictSet_granted (h : Represents d m) (key value : Blob)
    (hroom : (m.put key.data value.data).size ≤ maxPairs) :
    ∃ o, dictSet .always d key (some value) = .ok o ∧ o.result = true ∧
      Represents o.dict (m.put key.data value.data) := by
  have hlimit : key.data ∉ m.keys → d.full → TableAlloc.always.grants d.newSize = true →
      d.newSize ≤ 2 ^ 32 := by
    -- only a new pair in a full table makes the table grow
    intro hnew hfull _
    have hsize : m.size + 1 ≤ maxPairs := by
      rw [OrderedMap.size, OrderedMap.put_entries_of_not_mem _ hnew, List.length_append] at hroom
      exact hroom
    rw [h.size] at hsize
    rw [d.full_iff, Dict.load] at hfull
    rcases h.wf.alloced with h0 | ⟨k, hk, hN⟩
    · simp [Dict.newSize, h0]
    · have hpos : d.dataAlloced ≠ 0 := by rw [hN]; exact (Nat.two_pow_pos k).ne'
      -- a table of 2 ^ 32 slots would still have room for the new pair
      have hlt : k < 32 := by
        by_contra hge
        have hpow : 2 ^ 32 ≤ 2 ^ k := Nat.pow_le_pow_right (by decide) (Nat.le_of_not_lt hge)
        rw [← hN] at hpow
        simp only [maxPairs] at hsize
        omega
      calc
        d.newSize = 2 * 2 ^ k := by rw [Dict.newSize, if_pos hpos, hN]
        _ = 2 ^ (k + 1) := by rw [Nat.pow_succ, Nat.mul_comm]
        _ ≤ 2 ^ 32 := Nat.pow_le_pow_right (by decide) hlt
  rcases h.dictSet .always key value hlimit with ⟨o, ho, hres, hrep, _⟩
  have hset : (⟨m, d.dataAlloced⟩ : ListDict).set .always key.data value.data =
        (⟨m.put key.data value.data,
          ((⟨m, d.dataAlloced⟩ : ListDict).set .always key.data value.data).1.capacity⟩, true) := by
    simp only [ListDict.set, TableAlloc.always, TableAlloc.grants, Bool.and_self, if_true]
    split_ifs <;> rfl
  rw [hset] at hres hrep
  exact ⟨o, ho, hres, hrep⟩

/-- Loading records puts them into the map. -/
theorem loadPairs_represents (entries : List (Bytes × Bytes)) (hfits : ∀ e ∈ entries, Fits e)
    {d : Dict} {m : OrderedMap Bytes Bytes} (h : Represents d m)
    (hsize : (m.putAll entries).size ≤ maxPairs) (id : Nat) (rest : Bytes) :
    ∃ d' created, loadPairs (.roomy .always) entries.length d id
        (entries.flatMap pairBytes ++ rest) = .ok (d', created) ∧
      Represents d' (m.putAll entries) := by
  -- the loop of `LoadDict` is a sequence of sets
  induction entries generalizing d m id with
  | nil => exact ⟨d, [], rfl, h⟩
  | cons e entries ih =>
      rcases e with ⟨key, value⟩
      rw [OrderedMap.putAll_cons] at hsize
      -- the map only grows, so it has room for the pairs so far
      rcases dictSet_granted h (.ofBytes id key) (.ofBytes (id + 1) value)
        (le_trans ((m.put key value).size_le_putAll entries) hsize) with ⟨o, ho, _, hrep⟩
      rcases ih (fun e he => hfits e (List.mem_cons_of_mem _ he)) hrep hsize (id + 2) with
        ⟨d', created, hrest, hrep'⟩
      refine ⟨d', [.ofBytes id key, .ofBytes (id + 1) value] ++ created, ?_, hrep'⟩
      rw [List.flatMap_cons, List.append_assoc, List.length_cons, loadPairs,
        loadPair_pairBytes _ _ (hfits _ List.mem_cons_self), ho]
      simp [hrest]

/-- Loading a file puts its records into the map. -/
theorem loadDict_represents (h : Represents d m) (entries : List (Bytes × Bytes))
    (hlen : entries.length < 2 ^ 32) (hfits : ∀ e ∈ entries, Fits e)
    (hsize : (m.putAll entries).size ≤ maxPairs) (id : Nat) :
    ∃ o, loadDict (.roomy .always) d id (some (serialize entries)) = .ok o ∧ o.result = true ∧
      Represents o.dict (m.putAll entries) := by
  rcases loadPairs_represents entries hfits h hsize id [] with ⟨d', created, hload, hrep⟩
  refine ⟨⟨d', created, true⟩, ?_, rfl, hrep⟩
  have hfile := serialize_append entries []
  rw [List.append_nil] at hfile
  rw [hfile, loadDict_magic, readInt_toLE hlen, determinate, Fallible.ok_bind, hload]
  rfl

/-- Loading what was saved gives the map back. -/
theorem loadDict_serialize (hfits : ∀ e ∈ m.entries, Fits e) (hsize : m.size ≤ maxPairs)
    (id : Nat) :
    ∃ o, loadDict (.roomy .always) createDict id (some (serialize m.entries)) = .ok o ∧
      Represents o.dict m := by
  have hlen : m.entries.length < 2 ^ 32 := lt_of_le_of_lt hsize (by decide)
  rcases loadDict_represents represents_createDict m.entries hlen hfits
    (by rw [OrderedMap.empty_putAll]; exact hsize) id with ⟨o, ho, _, hrep⟩
  rw [OrderedMap.empty_putAll] at hrep
  exact ⟨o, ho, hrep⟩

theorem wellFormed_whole (h : d.WellFormed) (hv : d.Valued) : Whole d where
  count_le := h.toSafe.tidy.count_le
  valued := by
    intro pair hmem
    refine ⟨?_, Dict.valued_iff.mp hv pair hmem⟩
    rcases List.getElem?_of_mem hmem with ⟨i, hi⟩
    have hlt : i < d.dataCount := by
      have hlen := (List.getElem?_eq_some_iff.mp hi).1
      rw [List.length_take] at hlen
      exact lt_of_lt_of_le hlen (Nat.min_le_left _ _)
    rcases h.toSafe.pair_of_lt hlt with ⟨key, value, hpair⟩
    rw [List.getElem?_take_of_lt hlt, hpair] at hi
    cases hi
    simp

theorem represents_whole (h : Represents d m) : Whole d := wellFormed_whole h.wf h.valued

/-- What a dictionary saves is the map that it represents. -/
theorem represents_liveEntries (h : Represents d m) : liveEntries d = m.entries := by
  have hwhole := represents_whole h
  apply List.ext_getElem?
  intro i
  -- below the count the entries agree, behind it there are none on either side
  by_cases hi : i < d.dataCount
  · rcases hwhole.pair hi with ⟨key, value, hpair, hentry⟩
    rcases h.entry hi with ⟨key', value', hpair', hentry'⟩
    have hsame := Option.some.inj (hpair.symm.trans hpair')
    simp only [DictPair.mk.injEq, Option.some.injEq] at hsame
    rw [hentry, hentry', hsame.1, hsame.2]
  · have hge : d.dataCount ≤ i := Nat.le_of_not_lt hi
    rw [List.getElem?_eq_none (by rw [hwhole.length_eq]; exact hge),
      List.getElem?_eq_none (by rw [h.length]; exact hge)]

/-- When nothing fails, a map without empty blobs is saved. -/
theorem saveDict_smooth (path : Path) (w : World) (h : Represents d m) (hne : NoneEmpty m.entries) :
    ∃ w', saveDict d path .smooth w = (.ok true, w') ∧
      w'.files path = some (serialize m.entries) := by
  have hlive := represents_liveEntries h
  have hinst : Installs d .smooth w.clock (serialize m.entries) :=
    ⟨represents_whole h, hlive ▸ hne, Script.smooth_allDone _ _, Or.inl ⟨rfl, by rw [hlive]⟩, rfl⟩
  -- everything succeeds, so the new content is installed
  rcases saveDict_installs path hinst with ⟨hfile, ⟨hdead, _⟩ | ⟨_, hres⟩⟩
  · exact absurd hdead id
  · exact ⟨(saveDict d path .smooth w).2, Prod.ext hres rfl, hfile⟩

/-- An empty blob is reported as a failure although nothing fails. -/
theorem saveDict_smooth_empty (path : Path) (w : World) (h : Represents d m)
    (hempty : ¬ NoneEmpty m.entries) :
    ∃ w', saveDict d path .smooth w = (.ok false, w') ∧
      w'.files (path ++ newSuffix) = some (serialize m.entries) := by
  have hany : (chunks (liveEntries d)).any List.isEmpty = true := by
    rw [represents_liveEntries h, ← Bool.not_eq_false]
    exact fun hfalse => hempty (any_isEmpty_chunks.mp hfalse)
  rw [saveDict_written (represents_whole h) (Script.smooth_allDone _ _), hany, finishSave,
    Proc.bind_ok (Proc.fclose_done _ rfl), if_pos rfl, Proc.bind_ok (Proc.free_apply id)]
  refine ⟨_, rfl, ?_⟩
  rw [← represents_liveEntries h]
  simp [World.write, World.later]

/-! ## The invariant -/

/-- The file, and the dictionary of a process that has loaded it, hold the map. -/
structure Holds (path : Path) (s : Process × World) (m : OrderedMap Bytes Bytes) : Prop where
  file : s.2.files path = none ∧ m = OrderedMap.empty ∨
    s.2.files path = some (serialize m.entries)
  memory : ∀ d, s.1.gDatabase = some d → Represents d m
  fits : ∀ e ∈ m.entries, Fits e
  noneEmpty : NoneEmpty m.entries
  size : m.size ≤ maxPairs

variable {self : Process}

/-- `GetDB` finds or loads the map, and touches no file. -/
theorem getDB_holds (h : Holds path (self, w) m) :
    ∃ d self' w', getDB (.roomy .always) path self .smooth w = (.ok (d, self'), w') ∧
      self'.gDatabase = some d ∧ Represents d m ∧ w'.files = w.files := by
  cases hdb : self.gDatabase with
  | some d =>
      refine ⟨d, self, w, ?_, hdb, h.memory d hdb, rfl⟩
      simp only [getDB, hdb, Proc.pure_apply]
  | none =>
      have hload : ∃ o, loadDict (.roomy .always) createDict self.blocks (w.files path) = .ok o ∧
          Represents o.dict m := by
        -- no file yet, or the file of an earlier save
        rcases h.file with ⟨hnone, rfl⟩ | hsome
        · rw [hnone]
          exact ⟨_, rfl, represents_createDict⟩
        · rw [hsome]
          exact loadDict_serialize h.fits h.size self.blocks
      rcases hload with ⟨o, ho, hrep⟩
      -- nothing fails, so the file is read as it is
      rcases loadDictStream_eq (.roomy .always) createDict self.blocks
        (OpensAndReads.smooth path w) with ⟨w', hfiles, hrun | ⟨_, k, hdead⟩⟩
      · rw [ho] at hrun
        refine ⟨o.dict, ⟨some o.dict, self.blocks + o.created.length⟩, w', ?_, rfl, hrep, hfiles⟩
        simp only [getDB, hdb]
        exact Proc.bind_ok hrun
      · exact absurd hdead id

theorem getDB_loaded {heap : Heap} {script : Script} (h : self.gDatabase = some d) :
    getDB heap path self script w = (.ok (d, self), w) := by
  simp only [getDB, h, Proc.pure_apply]

theorem knBufToBlob_apply (bytes : Bytes) (script : Script) :
    knBufToBlob (.roomy .always) self bytes script w =
      (.ok (some (.ofBytes self.blocks bytes), { self with blocks := self.blocks + 1 }), w) := by
  simp only [knBufToBlob, createBlobIn_data]
  rfl

theorem Holds.congr {s s' : Process × World} (h : Holds path s m)
    (hdb : ∀ d, s'.1.gDatabase = some d → Represents d m)
    (hfile : s'.2.files path = s.2.files path) : Holds path s' m where
  file := by rw [hfile]; exact h.file
  memory := hdb
  fits := h.fits
  noneEmpty := h.noneEmpty
  size := h.size

/-- A process that has stored and saved a map holds it. -/
theorem Holds.saved (hrep : Represents d m) (hdb : self.gDatabase = some d)
    (hfile : w.files path = some (serialize m.entries)) (hfits : ∀ e ∈ m.entries, Fits e)
    (hne : NoneEmpty m.entries) (hsize : m.size ≤ maxPairs) : Holds path (self, w) m where
  file := Or.inr hfile
  memory := by
    intro d' hd'
    obtain rfl : d' = d := Option.some.inj (hd'.symm.trans hdb)
    exact hrep
  fits := hfits
  noneEmpty := hne
  size := hsize

/-- What holds of the entries and of a new pair holds of all pairs of the map after a `put`. -/
theorem forall_mem_put {P : Bytes × Bytes → Prop} {k v : Bytes} (h : ∀ e ∈ m.entries, P e)
    (hnew : P (k, v)) : ∀ e ∈ (m.put k v).entries, P e := by
  rintro ⟨k', v'⟩ he
  rw [OrderedMap.mem_put_entries] at he
  -- the new pair, or one of the old ones under another key
  by_cases hk : k' = k
  · rw [if_pos hk] at he
    rw [hk, he]
    exact hnew
  · rw [if_neg hk] at he
    exact h _ he

theorem forall_mem_erase {P : Bytes × Bytes → Prop} (k : Bytes) (h : ∀ e ∈ m.entries, P e) :
    ∀ e ∈ (m.erase k).entries, P e := fun e he => h e (List.mem_filter.mp he).1

/-! ## The calls -/

/-- `knDbSet` up to `SaveDict`. -/
theorem knDbSet_stored (h : Holds path (self, w) m) {key value : Bytes}
    (hroom : (m.put key value).size ≤ maxPairs) :
    ∃ d self' w', knDbSet (.roomy .always) path self [some key, some value] .smooth w =
        (saveDict d path >>= fun success => pure (self', .boolean success)) .smooth w' ∧
      self'.gDatabase = some d ∧ Represents d (m.put key value) := by
  -- the database is loaded first, then the pair is stored in memory
  rcases getDB_holds h with ⟨d, self₁, w₁, hget, _, hrep, _⟩
  rcases dictSet_granted hrep (.ofBytes self₁.blocks key)
    (.ofBytes (self₁.blocks + 1) value) hroom with ⟨o, ho, hres, hrep'⟩
  refine ⟨o.dict, ⟨some o.dict, self₁.blocks + 1 + 1⟩, w₁, ?_, rfl, hrep'⟩
  have hset : Proc.lift (dictSet (Heap.roomy .always).table d (.ofBytes self₁.blocks key)
      (some (.ofBytes (self₁.blocks + 1) value))) .smooth w₁ = (.ok o, w₁) := by
    rw [Proc.lift_apply]
    exact Prod.ext ho rfl
  refine (Proc.bind_ok hget).trans ?_
  refine (Proc.bind_ok (knBufToBlob_apply key _)).trans ?_
  refine (Proc.bind_ok (knBufToBlob_apply value _)).trans ?_
  refine (Proc.bind_ok (Proc.lift_apply _ _ _)).trans ?_
  refine (Proc.bind_ok hset).trans ?_
  -- the second `GetDB` finds the dictionary that was just changed
  have hloaded : getDB (.roomy .always) path ⟨some o.dict, self₁.blocks + 1 + 1⟩ .smooth w₁ =
      (.ok (o.dict, ⟨some o.dict, self₁.blocks + 1 + 1⟩), w₁) := getDB_loaded rfl
  simp only [hres, if_true]
  refine (Proc.bind_ok hloaded).trans ?_
  rfl

theorem knDbSet_storable (h : Holds path (self, w) m) {key value : Bytes}
    (hfits : Fits (key, value)) (hroom : (m.put key value).size ≤ maxPairs)
    (hne : key ≠ [] ∧ value ≠ []) :
    ∃ s', knDbSet (.roomy .always) path self [some key, some value] .smooth w =
        (.ok (s'.1, .boolean true), s'.2) ∧ Holds path s' (m.put key value) := by
  rcases knDbSet_stored h hroom with ⟨d, self', w', hrun, hdb, hrep⟩
  have hne' : NoneEmpty (m.put key value).entries := forall_mem_put h.noneEmpty hne
  rcases saveDict_smooth path w' hrep hne' with ⟨w'', hsave, hfile⟩
  refine ⟨(self', w''), ?_,
    Holds.saved hrep hdb hfile (forall_mem_put h.fits hfits) hne' hroom⟩
  rw [hrun, Proc.bind_ok hsave]
  rfl

theorem knDbSet_empty (h : Holds path (self, w) m) {key value : Bytes}
    (hroom : (m.put key value).size ≤ maxPairs) (hempty : ¬ (key ≠ [] ∧ value ≠ [])) :
    ∃ s' : Process × World, knDbSet (.roomy .always) path self [some key, some value] .smooth w =
        (.ok (s'.1, .boolean false), s'.2) := by
  rcases knDbSet_stored h hroom with ⟨d, self', w', hrun, _, hrep⟩
  -- the empty blob is among the pairs now
  have hempty' : ¬ NoneEmpty (m.put key value).entries := by
    intro hne
    exact hempty (hne (key, value) (OrderedMap.mem_put_entries.mpr (by simp)))
  rcases saveDict_smooth_empty path w' hrep hempty' with ⟨w'', hsave, _⟩
  refine ⟨(self', w''), ?_⟩
  rw [hrun, Proc.bind_ok hsave]
  rfl

theorem knDbGet_holds (h : Holds path (self, w) m) (key : Bytes) :
    ∃ s', knDbGet (.roomy .always) path self [some key] .smooth w =
        (.ok (s'.1, (m.lookup key).elim .nil .string), s'.2) ∧ Holds path s' m := by
  rcases getDB_holds h with ⟨d, self₁, w₁, hget, hdb, hrep, hfiles⟩
  rcases hrep.wf.dictGet_eq (.ofBytes self₁.blocks key) with ⟨r, hfound, hr⟩
  -- the lookup in memory is the lookup in the map
  have hlookup : (r.bind d.valueAt).map Blob.data = m.lookup key := (hrep.found_iff hfound).2
  have hrun : Proc.lift (dictGet d (.ofBytes self₁.blocks key)) .smooth w₁ =
      (.ok ⟨d, [.ofBytes self₁.blocks key], r.bind d.valueAt⟩, w₁) := by
    rw [hr, Proc.lift_apply]
  refine ⟨({ self₁ with blocks := self₁.blocks + 1 }, w₁), ?_, h.congr ?_ (by rw [hfiles])⟩
  · refine (Proc.bind_ok hget).trans ?_
    refine (Proc.bind_ok (knBufToBlob_apply key _)).trans ?_
    refine (Proc.bind_ok (Proc.lift_apply _ _ _)).trans ?_
    refine (Proc.bind_ok hrun).trans ?_
    rw [← hlookup]
    cases r.bind d.valueAt <;> rfl
  · intro d' hd'
    obtain rfl : d' = d := Option.some.inj (hd'.symm.trans hdb)
    exact hrep

theorem knDbHas_holds (h : Holds path (self, w) m) (key : Bytes) :
    ∃ s', knDbHas (.roomy .always) path self [some key] .smooth w =
        (.ok (s'.1, .boolean (m.contains key)), s'.2) ∧ Holds path s' m := by
  rcases getDB_holds h with ⟨d, self₁, w₁, hget, hdb, hrep, hfiles⟩
  rcases hrep.wf.dictHas_eq (.ofBytes self₁.blocks key) with ⟨r, hfound, hr⟩
  have hhas : r.isSome = m.contains key := (hrep.found_iff hfound).1
  have hrun : Proc.lift (dictHas d (.ofBytes self₁.blocks key)) .smooth w₁ =
      (.ok ⟨d, [.ofBytes self₁.blocks key], r.isSome⟩, w₁) := by
    rw [hr, Proc.lift_apply]
  refine ⟨({ self₁ with blocks := self₁.blocks + 1 }, w₁), ?_, h.congr ?_ (by rw [hfiles])⟩
  · refine (Proc.bind_ok hget).trans ?_
    refine (Proc.bind_ok (knBufToBlob_apply key _)).trans ?_
    refine (Proc.bind_ok (Proc.lift_apply _ _ _)).trans ?_
    refine (Proc.bind_ok hrun).trans ?_
    rw [← hhas]
    rfl
  · intro d' hd'
    obtain rfl : d' = d := Option.some.inj (hd'.symm.trans hdb)
    exact hrep

theorem knDbDelete_holds (h : Holds path (self, w) m) (key : Bytes) :
    ∃ s', knDbDelete (.roomy .always) path self [some key] .smooth w =
        (.ok (s'.1, .boolean true), s'.2) ∧ Holds path s' (m.erase key) := by
  rcases getDB_holds h with ⟨d, self₁, w₁, hget, _, hrep, _⟩
  rcases hrep.dictDelete (.ofBytes self₁.blocks key) with ⟨o, ho, _, hrep', _⟩
  have hdelete : Proc.lift (dictDelete d (.ofBytes self₁.blocks key)) .smooth w₁ =
      (.ok o, w₁) := by rw [ho, Proc.lift_apply]
  have hne : NoneEmpty (m.erase key).entries := forall_mem_erase key h.noneEmpty
  -- a deletion makes the map smaller
  have hsize : (m.erase key).size ≤ maxPairs :=
    le_trans (List.length_filter_le _ _) h.size
  rcases saveDict_smooth path w₁ hrep' hne with ⟨w', hsave, hfile⟩
  refine ⟨(⟨some o.dict, self₁.blocks + 1⟩, w'), ?_,
    Holds.saved hrep' rfl hfile (forall_mem_erase key h.fits) hne hsize⟩
  refine (Proc.bind_ok hget).trans ?_
  refine (Proc.bind_ok (knBufToBlob_apply key _)).trans ?_
  refine (Proc.bind_ok (Proc.lift_apply _ _ _)).trans ?_
  refine (Proc.bind_ok hdelete).trans ?_
  refine (Proc.bind_ok (getDB_loaded rfl)).trans ?_
  exact Proc.bind_ok hsave

/-! ## The answers -/

theorem dbMachine_step {c : DbCall} {s s' : Process × World} {answer : LuaReturn}
    (h : dbProc path s.1 c .smooth s.2 = (.ok (s'.1, answer), s'.2)) :
    (dbMachine path).step s c = .ok (s', answer) := by
  change ((dbProc path s.1 c).run .smooth s.2 >>= fun r => _) = _
  rw [Proc.run_eq_ok.mpr h]
  rfl

theorem dbStep_storable (s : Process × World) (m : OrderedMap Bytes Bytes) (c : DbCall)
    (h : Holds path s m) (hbound : c.Bounded m) (hc : c.Storable) :
    ∃ s', (dbMachine path).step s c = .ok (s', (dbMap.step m c).2) ∧
      Holds path s' (dbMap.step m c).1 := by
  cases c with
  | set key value =>
      rcases knDbSet_storable h hbound.1 hbound.2 hc with ⟨s', hrun, hholds⟩
      exact ⟨s', dbMachine_step hrun, hholds⟩
  | get key =>
      rcases knDbGet_holds h key with ⟨s', hrun, hholds⟩
      exact ⟨s', dbMachine_step hrun, hholds⟩
  | has key =>
      rcases knDbHas_holds h key with ⟨s', hrun, hholds⟩
      exact ⟨s', dbMachine_step hrun, hholds⟩
  | delete key =>
      rcases knDbDelete_holds h key with ⟨s', hrun, hholds⟩
      exact ⟨s', dbMachine_step hrun, hholds⟩
  | restart =>
      -- only the file is left
      refine ⟨(.fresh, s.2), rfl, h.congr ?_ rfl⟩
      intro d hd
      cases hd

/-- An empty key or value makes `knDbSet` return false. -/
theorem dbStep_not_storable (s : Process × World) (m : OrderedMap Bytes Bytes) (c : DbCall)
    (h : Holds path s m) (hbound : c.Bounded m) (hc : ¬ c.Storable) (s' : Process × World) :
    (dbMachine path).step s c ≠ .ok (s', (dbMap.step m c).2) := by
  cases c with
  | set key value =>
      rcases knDbSet_empty h hbound.2 hc with ⟨s₁, hrun⟩
      have hstep : (dbMachine path).step s (.set key value) = .ok (s₁, .boolean false) :=
        dbMachine_step hrun
      rw [hstep]
      intro heq
      cases heq
  | get key => exact absurd trivial hc
  | has key => exact absurd trivial hc
  | delete key => exact absurd trivial hc
  | restart => exact absurd trivial hc

theorem holds_init : Holds path (dbMachine path).init dbMap.init where
  file := Or.inl ⟨rfl, rfl⟩
  memory := by
    intro d hd
    cases hd
  fits := by
    intro e he
    cases he
  noneEmpty := by
    intro e he
    cases he
  size := Nat.zero_le _

/-- A run with restarts answers as a map that does not notice them exactly when no call stores an
empty key or value. -/
theorem db_answers_iff (path : Path) (calls : List DbCall)
    (hbound : dbMap.Admits DbCall.Bounded dbMap.init calls) :
    (∃ s, (dbMachine path).run calls = .ok (s, dbMap.answers dbMap.init calls)) ↔
      ∀ c ∈ calls, c.Storable :=
  Machine.runFrom_answers_iff dbStep_storable dbStep_not_storable calls _ _ holds_init hbound

/-- A set, a restart, and what is then found. -/
theorem db_answers_restart :
    ∃ s, (dbMachine [0x64]).run
        [.set [0x6b] [0x76], .restart, .get [0x6b], .delete [0x6b], .restart, .has [0x6b]] =
      .ok (s, [.boolean true, .nothing, .string [0x76], .boolean true, .nothing,
        .boolean false]) :=
  (db_answers_iff [0x64]
    [.set [0x6b] [0x76], .restart, .get [0x6b], .delete [0x6b], .restart, .has [0x6b]]
    ⟨⟨⟨by decide, by decide⟩, by decide⟩, trivial, trivial, trivial, trivial, trivial, trivial⟩).mpr
    (by simp [DbCall.Storable])

/-- Storing an empty value is reported as a failure, and is forgotten with the next restart. -/
theorem db_answers_empty :
    let calls : List DbCall := [.set [0x6b] [], .has [0x6b], .restart, .has [0x6b]]
    dbMap.Admits DbCall.Bounded dbMap.init calls ∧
      (∃ s, (dbMachine [0x64]).run calls =
        .ok (s, [.boolean false, .boolean true, .nothing, .boolean false])) ∧
      ¬ ∃ s, (dbMachine [0x64]).run calls = .ok (s, dbMap.answers dbMap.init calls) := by
  refine ⟨⟨⟨⟨by decide, by decide⟩, by decide⟩, trivial, trivial, trivial, trivial⟩,
    ⟨_, rfl⟩, ?_⟩
  rintro ⟨s, hs⟩
  cases hs

end Database
end KnShim
