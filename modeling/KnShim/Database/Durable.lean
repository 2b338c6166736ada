import KnShim.Database.Persistent
import KnShim.Lib.Durable

/-!
# Durable — the database when files fail and the game dies

The machine of this file runs the database functions on any script: file operations fail, and the
process is killed in any of them, after which the game starts again.  `db_durable` says what is
left: the database file is complete at any time, and holds the updates in their order without a
gap in what was acknowledged.

There are three exceptions, which `Sound` excludes.  After a `LateFailure` the file is not
complete.  `GetDB` takes a file that `fopen` does not open for one that does not exist, so the next
save replaces the whole database.  And a read that fails leaves words that were never read and
`NULL` buffers, which `LoadDict` uses.
-/

namespace KnShim
namespace Database

open Lib HashTable

/-! ## The machine -/

/-- The game and its files; a game that is killed is started again. -/
def dbScripted (gDatabasePath : Path) (script : Script) :
    Machine (Process × World) DbCall (Option LuaReturn) where
  init := (.fresh, ⟨fun _ => none, 0⟩)
  step := fun s c =>
    match dbProc gDatabasePath s.1 c script s.2 with
    | (.ok (self, answer), w) => .ok ((self, w), some answer)
    | (.error .killed, w) => .ok ((.fresh, w), none)
    | (.error e, _) => .error e

/-- The calls that change the map. -/
def DbCall.updates : DbCall → Bool
  | .set _ _ => true
  | .delete _ => true
  | _ => false

/-- What a call makes of the map. -/
def dbUpdate (m : OrderedMap Bytes Bytes) (c : DbCall) : OrderedMap Bytes Bytes :=
  (dbMap.step m c).1

/-- A call and its answer as an event of a durable store; `none` is the death of the process. -/
def dbEvent (c : DbCall) (answer : Option LuaReturn) : Durable.Event DbCall :=
  match answer with
  | none => if c.updates then .cut c else .restarted
  | some answer =>
      if c.updates then
        if answer = .boolean true then .saved c else .unsaved c
      else
        match c with
        | .restart => .restarted
        | _ => .looked

/-- What a call does before it saves: the dictionary to save, or the answer of a call that saves
nothing. -/
def beforeSave (gDatabasePath : Path) (self : Process) : DbCall → Proc (Process × (Dict ⊕ LuaReturn))
  | .set key value => do
      let (dict, self) ← getDB (.roomy .always) gDatabasePath self
      let (key, self) ← knBufToBlob (.roomy .always) self key
      let (value, self) ← knBufToBlob (.roomy .always) self value
      let key ← Proc.lift (deref key)
      let o ← Proc.lift (dictSet .always dict key value)
      let self := { self with gDatabase := some o.dict }
      if o.result then
        let (dict, self) ← getDB (.roomy .always) gDatabasePath self
        return (self, .inl dict)
      else
        return (self, .inr (.boolean false))
  | .delete key => do
      let (dict, self) ← getDB (.roomy .always) gDatabasePath self
      let (key, self) ← knBufToBlob (.roomy .always) self key
      let key ← Proc.lift (deref key)
      let o ← Proc.lift (dictDelete dict key)
      let self := { self with gDatabase := some o.dict }
      let (dict, self) ← getDB (.roomy .always) gDatabasePath self
      return (self, .inl dict)
  | .get key => do
      let (self, answer) ← knDbGet (.roomy .always) gDatabasePath self [some key]
      return (self, .inr answer)
  | .has key => do
      let (self, answer) ← knDbHas (.roomy .always) gDatabasePath self [some key]
      return (self, .inr answer)
  | .restart => return (.fresh, .inr .nothing)

/-- The rest of a call. -/
def finishCall (gDatabasePath : Path) (self : Process) : Dict ⊕ LuaReturn →
    Proc (Process × LuaReturn)
  | .inl dict => do
      let saved ← saveDict dict gDatabasePath
      return (self, .boolean saved)
  | .inr answer => return (self, answer)

theorem dbProc_eq (path : Path) (self : Process) (c : DbCall) :
    dbProc path self c = beforeSave path self c >>= fun r => finishCall path r.1 r.2 := by
  cases c with
  | set key value =>
      simp only [dbProc, knDbSet, beforeSave, bind_assoc]
      refine bind_congr (fun r => bind_congr (fun r₁ => bind_congr (fun r₂ =>
        bind_congr (fun b => bind_congr (fun o => ?_)))))
      -- only a pair that was stored is saved
      cases o.result with
      | false => rfl
      | true => rfl
  | get key => simp [dbProc, beforeSave, finishCall]
  | has key => simp [dbProc, beforeSave, finishCall]
  | delete key => simp [dbProc, knDbDelete, beforeSave, finishCall]
  | restart => simp [dbProc, beforeSave, finishCall]

/-! ## Saving returns or dies -/

variable {path : Path} {script : Script} {self : Process} {w w' : World} {d : Dict}
  {m : OrderedMap Bytes Bytes} {c : DbCall}

theorem onlyKilled_writeChunks (cs : List Bytes) (error : Bool) (file : Stream) :
    Proc.OnlyKilled (writeChunks cs error file) := by
  induction cs generalizing error file with
  | nil => exact Proc.OnlyKilled.pure _
  | cons chunk cs ih =>
      refine Proc.OnlyKilled.bind ?_ (fun r => ih _ _)
      intro script w e h
      rw [writeData_apply] at h
      cases hfate : script w.clock with
      | done =>
          rw [hfate] at h
          cases h
      | fails kept =>
          rw [hfate] at h
          cases h
      | dies kept =>
          rw [hfate] at h
          cases h
          rfl

theorem onlyKilled_finishSave (error : Bool) (file : Stream) (tempPath path : Path) :
    Proc.OnlyKilled (finishSave error file tempPath path) := by
  refine (Proc.OnlyKilled.fclose file).bind (fun _ => ?_)
  cases error with
  | true => exact Proc.OnlyKilled.free.bind (fun _ => Proc.OnlyKilled.pure _)
  | false =>
      refine (Proc.OnlyKilled.rename tempPath path).bind (fun success => ?_)
      exact Proc.OnlyKilled.free.bind (fun _ => Proc.OnlyKilled.pure _)

/-- A dictionary without holes is saved without a fault. -/
theorem onlyKilled_saveDict (h : Whole d) (path : Path) : Proc.OnlyKilled (saveDict d path) := by
  refine Proc.OnlyKilled.malloc.bind (fun granted => ?_)
  cases granted with
  | false => exact Proc.OnlyKilled.pure _
  | true =>
      refine (Proc.OnlyKilled.fopenWrite _).bind (fun r => ?_)
      cases r with
      | none => exact Proc.OnlyKilled.free.bind (fun _ => Proc.OnlyKilled.pure _)
      | some file =>
          refine Proc.OnlyKilled.bind ?_ (fun r => onlyKilled_finishSave _ _ _ _)
          rw [writeDict_eq h]
          exact onlyKilled_writeChunks _ _ _

/-! ## The invariant -/

/-- The file holds the map. -/
def OnDisk (path : Path) (w : World) (m : OrderedMap Bytes Bytes) : Prop :=
  w.files path = none ∧ m = OrderedMap.empty ∨ w.files path = some (serialize m.entries)

theorem OnDisk.congr (h : OnDisk path w m) (hfiles : w'.files path = w.files path) :
    OnDisk path w' m := by
  rw [OnDisk, hfiles]
  exact h

/-- The pairs have lengths that fit their fields, and their keys are among `keys`. -/
def Within (keys : List Bytes) (m : OrderedMap Bytes Bytes) : Prop :=
  ∀ e ∈ m.entries, Fits e ∧ e.1 ∈ keys

def DbCall.Within (keys : List Bytes) : DbCall → Prop
  | .set key value => Fits (key, value) ∧ key ∈ keys
  | _ => True

variable {keys : List Bytes}

theorem Within.size_le (h : Within keys m) (hkeys : keys.dedup.length ≤ maxPairs) :
    m.size ≤ maxPairs := by
  -- different keys, all of them in the list
  have hsubset : m.keys ⊆ keys.dedup := by
    intro k hk
    rcases List.mem_map.mp hk with ⟨e, he, rfl⟩
    exact List.mem_dedup.mpr (h e he).2
  rw [← m.length_keys]
  exact le_trans (List.subperm_of_subset m.nodup hsubset).length_le hkeys

theorem Within.update (h : Within keys m) (hc : c.Within keys) : Within keys (dbUpdate m c) := by
  cases c with
  | set key value => exact forall_mem_put h hc
  | delete key => exact forall_mem_erase key h
  | get key => exact h
  | has key => exact h
  | restart => exact h

/-- The file and the dictionary in memory are the two values of a durable store. -/
structure Relates (path : Path) (keys : List Bytes) (s : Process × World)
    (a : Durable (OrderedMap Bytes Bytes)) : Prop where
  disk : OnDisk path s.2 a.disk
  unloaded : s.1.gDatabase = none → a.memory = none
  loaded : ∀ d, s.1.gDatabase = some d → ∃ m, a.memory = some m ∧ Represents d m
  diskWithin : Within keys a.disk
  currentWithin : Within keys a.current

variable {a : Durable (OrderedMap Bytes Bytes)}

/-- A process that is gone leaves the file. -/
theorem Relates.gone {disk : OrderedMap Bytes Bytes} (hdisk : OnDisk path w disk)
    (hwithin : Within keys disk) : Relates path keys (.fresh, w) ⟨disk, none⟩ where
  disk := hdisk
  unloaded := fun _ => rfl
  loaded := by
    intro d hd
    cases hd
  diskWithin := hwithin
  currentWithin := hwithin

/-- A process that has a dictionary. -/
theorem Relates.running {disk : OrderedMap Bytes Bytes} (hdisk : OnDisk path w disk)
    (hwithin : Within keys disk) (hdb : self.gDatabase = some d) (hrep : Represents d m)
    (hm : Within keys m) : Relates path keys (self, w) ⟨disk, some m⟩ where
  disk := hdisk
  unloaded := by
    intro hnone
    rw [hdb] at hnone
    cases hnone
  loaded := by
    intro d' hd'
    obtain rfl : d' = d := Option.some.inj (hd'.symm.trans hdb)
    exact ⟨m, rfl, hrep⟩
  diskWithin := hwithin
  currentWithin := hm

/-! ## One call -/

/-- The first use of the database opens and reads its file if there is one, and no save ends in a
`LateFailure`. -/
structure Sound (path : Path) (script : Script) (s : Process × World) (c : DbCall) : Prop where
  opens : c ≠ .restart → s.1.gDatabase = none → OpensAndReads path script s.2
  flushes : ∀ self' dict w', beforeSave path s.1 c script s.2 = (.ok (self', .inl dict), w') →
    ∀ kept, ¬ LateFailure dict path script w' kept

/-- `GetDB` finds or loads what the store holds, or the process dies. -/
theorem getDB_scripted (h : Relates path keys (self, w) a) (hkeys : keys.dedup.length ≤ maxPairs)
    (hopens : self.gDatabase = none → OpensAndReads path script w) :
    ∃ w', w'.files = w.files ∧
      (getDB (.roomy .always) path self script w = (.error .killed, w') ∨
        ∃ d self', getDB (.roomy .always) path self script w = (.ok (d, self'), w') ∧
          self'.gDatabase = some d ∧ Represents d a.current) := by
  cases hdb : self.gDatabase with
  | some d =>
      rcases h.loaded d hdb with ⟨m, hm, hrep⟩
      have hcurrent : a.current = m := by rw [Durable.current, hm, Option.getD_some]
      exact ⟨w, rfl, Or.inr ⟨d, self, getDB_loaded hdb, hdb, hcurrent ▸ hrep⟩⟩
  | none =>
      have hcurrent : a.current = a.disk := by
        rw [Durable.current, h.unloaded hdb, Option.getD_none]
      have hload : ∃ o, loadDict (.roomy .always) createDict self.blocks (w.files path) = .ok o ∧
          Represents o.dict a.disk := by
        rcases h.disk with ⟨hnone, hempty⟩ | hsome
        · rw [hnone, hempty]
          exact ⟨_, rfl, represents_createDict⟩
        · rw [hsome]
          exact loadDict_serialize (fun e he => (h.diskWithin e he).1)
            (h.diskWithin.size_le hkeys) self.blocks
      rcases hload with ⟨o, ho, hrep⟩
      -- the file as it is, whether or not there is one
      rcases loadDictStream_eq (.roomy .always) createDict self.blocks (hopens hdb) with
        ⟨w', hfiles, hrun | ⟨hrun, _⟩⟩
      · rw [ho] at hrun
        refine ⟨w', hfiles, Or.inr ⟨o.dict, ⟨some o.dict, self.blocks + o.created.length⟩, ?_, rfl,
          hcurrent ▸ hrep⟩⟩
        simp only [getDB, hdb]
        exact Proc.bind_ok hrun
      · refine ⟨w', hfiles, Or.inl ?_⟩
        simp only [getDB, hdb]
        exact Proc.bind_error hrun

theorem beforeSave_killed (hc : c ≠ .restart)
    (h : getDB (.roomy .always) path self script w = (.error .killed, w')) :
    beforeSave path self c script w = (.error .killed, w') := by
  cases c with
  | set key value => exact Proc.bind_error h
  | get key => exact Proc.bind_error (Proc.bind_error h)
  | has key => exact Proc.bind_error (Proc.bind_error h)
  | delete key => exact Proc.bind_error h
  | restart => exact absurd rfl hc

/-- Once the database is loaded, a call changes it as the map is changed, and saves it or answers
from it. -/
theorem beforeSave_loaded (hc : c ≠ .restart) {self₁ : Process} {w₁ : World}
    (hget : getDB (.roomy .always) path self script w = (.ok (d, self₁), w₁))
    (hdb : self₁.gDatabase = some d) (hrep : Represents d m)
    (hroom : (dbUpdate m c).size ≤ maxPairs) :
    ∃ self' d', self'.gDatabase = some d' ∧ Represents d' (dbUpdate m c) ∧
      beforeSave path self c script w =
        (.ok (self', if c.updates then .inl d' else .inr (dbMap.step m c).2), w₁) := by
  cases c with
  | set key value =>
      rcases dictSet_granted hrep (.ofBytes self₁.blocks key)
        (.ofBytes (self₁.blocks + 1) value) hroom with ⟨o, ho, hres, hrep'⟩
      refine ⟨⟨some o.dict, self₁.blocks + 1 + 1⟩, o.dict, rfl, hrep', ?_⟩
      have hset : Proc.lift (dictSet .always d (.ofBytes self₁.blocks key)
          (some (.ofBytes (self₁.blocks + 1) value))) script w₁ = (.ok o, w₁) := by
        rw [Proc.lift_apply]
        exact Prod.ext ho rfl
      refine (Proc.bind_ok hget).trans ?_
      refine (Proc.bind_ok (knBufToBlob_apply key script)).trans ?_
      refine (Proc.bind_ok (knBufToBlob_apply value script)).trans ?_
      refine (Proc.bind_ok (Proc.lift_apply _ script w₁)).trans ?_
      refine (Proc.bind_ok hset).trans ?_
      simp only [hres, if_true]
      exact Proc.bind_ok (getDB_loaded rfl)
  | get key =>
      rcases hrep.wf.dictGet_eq (.ofBytes self₁.blocks key) with ⟨r, hfound, hr⟩
      have hlookup : (r.bind d.valueAt).map Blob.data = m.lookup key := (hrep.found_iff hfound).2
      refine ⟨{ self₁ with blocks := self₁.blocks + 1 }, d, hdb, hrep, ?_⟩
      have hrun : Proc.lift (dictGet d (.ofBytes self₁.blocks key)) script w₁ =
          (.ok ⟨d, [.ofBytes self₁.blocks key], r.bind d.valueAt⟩, w₁) := by
        rw [hr, Proc.lift_apply]
      refine Proc.bind_ok (a := (_, (dbMap.step m (.get key)).2)) ?_
      refine (Proc.bind_ok hget).trans ?_
      refine (Proc.bind_ok (knBufToBlob_apply key script)).trans ?_
      refine (Proc.bind_ok (Proc.lift_apply _ script w₁)).trans ?_
      refine (Proc.bind_ok hrun).trans ?_
      simp only [dbMap, ← hlookup]
      cases r.bind d.valueAt <;> rfl
  | has key =>
      rcases hrep.wf.dictHas_eq (.ofBytes self₁.blocks key) with ⟨r, hfound, hr⟩
      have hhas : r.isSome = m.contains key := (hrep.found_iff hfound).1
      refine ⟨{ self₁ with blocks := self₁.blocks + 1 }, d, hdb, hrep, ?_⟩
      have hrun : Proc.lift (dictHas d (.ofBytes self₁.blocks key)) script w₁ =
          (.ok ⟨d, [.ofBytes self₁.blocks key], r.isSome⟩, w₁) := by
        rw [hr, Proc.lift_apply]
      refine Proc.bind_ok (a := (_, (dbMap.step m (.has key)).2)) ?_
      refine (Proc.bind_ok hget).trans ?_
      refine (Proc.bind_ok (knBufToBlob_apply key script)).trans ?_
      refine (Proc.bind_ok (Proc.lift_apply _ script w₁)).trans ?_
      refine (Proc.bind_ok hrun).trans ?_
      simp only [dbMap, ← hhas]
      rfl
  | delete key =>
      rcases hrep.dictDelete (.ofBytes self₁.blocks key) with ⟨o, ho, _, hrep', _⟩
      refine ⟨⟨some o.dict, self₁.blocks + 1⟩, o.dict, rfl, hrep', ?_⟩
      have hdelete : Proc.lift (dictDelete d (.ofBytes self₁.blocks key)) script w₁ =
          (.ok o, w₁) := by rw [ho, Proc.lift_apply]
      refine (Proc.bind_ok hget).trans ?_
      refine (Proc.bind_ok (knBufToBlob_apply key script)).trans ?_
      refine (Proc.bind_ok (Proc.lift_apply _ script w₁)).trans ?_
      refine (Proc.bind_ok hdelete).trans ?_
      exact Proc.bind_ok (getDB_loaded rfl)
  | restart => exact absurd rfl hc

/-- A save returns and tells what is on disk, or dies with the file of before or after it. -/
theorem saveDict_scripted {disk : OrderedMap Bytes Bytes} (hdisk : OnDisk path w disk)
    (hrep : Represents d m) (hflush : ∀ kept, ¬ LateFailure d path script w kept) :
    (∃ w', saveDict d path script w = (.ok true, w') ∧ OnDisk path w' m) ∨
      (∃ w', saveDict d path script w = (.ok false, w') ∧ OnDisk path w' disk) ∨
      ∃ w', saveDict d path script w = (.error .killed, w') ∧
        (OnDisk path w' disk ∨ OnDisk path w' m) := by
  have hreplaced := saveDict_replaces hflush
  cases hrun : saveDict d path script w with
  | mk r w' =>
      rw [hrun] at hreplaced
      cases r with
      | ok saved =>
          cases saved with
          | true =>
              refine Or.inl ⟨w', rfl, Or.inr ?_⟩
              rw [hreplaced.saved rfl, represents_liveEntries hrep]
          | false => exact Or.inr (Or.inl ⟨w', rfl, hdisk.congr (hreplaced.unsaved rfl)⟩)
      | error e =>
          obtain rfl : e = .killed :=
            onlyKilled_saveDict (represents_whole hrep) path script w e (by rw [hrun])
          refine Or.inr (Or.inr ⟨w', rfl, ?_⟩)
          -- nobody was told which of the two it is
          rcases hreplaced.either with hbefore | hafter
          · exact Or.inl (hdisk.congr hbefore)
          · right
            right
            rw [hafter, represents_liveEntries hrep]

/-! ## One step -/

variable {s : Process × World} {self' : Process} {answer : LuaReturn}

/-- A call that returns. -/
theorem dbScripted_returned (hrun : dbProc path self c script w = (.ok (self', answer), w')) :
    (dbScripted path script).step (self, w) c = .ok ((self', w'), some answer) := by
  simp only [dbScripted, hrun]

/-- A call in which the process dies. -/
theorem dbScripted_killed (hrun : dbProc path self c script w = (.error .killed, w')) :
    (dbScripted path script).step (self, w) c = .ok ((.fresh, w'), none) := by
  simp only [dbScripted, hrun]

/-- A question is answered from memory, and the store is looked at. -/
theorem dbScripted_question (hc : c ≠ .restart) (hupdates : c.updates = false)
    (hbefore : beforeSave path self c script w =
      (.ok (self', .inr (dbMap.step a.current c).2), w'))
    (hdisk : OnDisk path w' a.disk) (hdiskWithin : Within keys a.disk)
    (hdb : self'.gDatabase = some d) (hrep : Represents d (dbUpdate a.current c))
    (hwithin : Within keys a.current) :
    ∃ s' a', (dbScripted path script).step (self, w) c =
        .ok (s', some (dbMap.step a.current c).2) ∧
      Durable.Step dbUpdate a (dbEvent c (some (dbMap.step a.current c).2)) a' ∧
      Relates path keys s' a' := by
  have hrun : dbProc path self c script w = (.ok (self', (dbMap.step a.current c).2), w') := by
    rw [dbProc_eq, Proc.bind_ok hbefore]
    rfl
  have hsame : dbUpdate a.current c = a.current := by cases c <;> first | rfl | cases hupdates
  rw [hsame] at hrep
  refine ⟨_, _, dbScripted_returned hrun, ?_,
    Relates.running hdisk hdiskWithin hdb hrep hwithin⟩
  cases c with
  | set key value => cases hupdates
  | delete key => cases hupdates
  | restart => exact absurd rfl hc
  | get key => exact .looked a
  | has key => exact .looked a

/-- An update is saved, or not saved, or cut off with the file of before or after it. -/
theorem dbScripted_update (hupdates : c.updates = true)
    (hbefore : beforeSave path self c script w = (.ok (self', .inl d), w'))
    (hflush : ∀ kept, ¬ LateFailure d path script w' kept)
    (hdisk : OnDisk path w' a.disk) (hdiskWithin : Within keys a.disk)
    (hdb : self'.gDatabase = some d) (hrep : Represents d (dbUpdate a.current c))
    (hwithin : Within keys (dbUpdate a.current c)) :
    ∃ s' answer a', (dbScripted path script).step (self, w) c = .ok (s', answer) ∧
      Durable.Step dbUpdate a (dbEvent c answer) a' ∧ Relates path keys s' a' := by
  have hrun : dbProc path self c script w =
      (saveDict d path >>= fun saved => pure (self', .boolean saved)) script w' := by
    rw [dbProc_eq, Proc.bind_ok hbefore]
    rfl
  rcases saveDict_scripted hdisk hrep hflush with
    ⟨w₁, hsave, hdisk'⟩ | ⟨w₁, hsave, hdisk'⟩ | ⟨w₁, hsave, hdisk'⟩
  · rw [Proc.bind_ok hsave] at hrun
    refine ⟨_, _, _, dbScripted_returned hrun, ?_,
      Relates.running hdisk' hwithin hdb hrep hwithin⟩
    simp only [dbEvent, hupdates, if_true]
    exact .saved a c
  · rw [Proc.bind_ok hsave] at hrun
    refine ⟨_, _, _, dbScripted_returned hrun, ?_,
      Relates.running hdisk' hdiskWithin hdb hrep hwithin⟩
    simp only [dbEvent, hupdates, if_true, LuaReturn.boolean.injEq, Bool.false_eq_true, if_false]
    exact .unsaved a c
  · rw [Proc.bind_error hsave] at hrun
    have hevent : dbEvent c none = .cut c := by simp only [dbEvent, hupdates, if_true]
    rcases hdisk' with hdisk' | hdisk'
    · refine ⟨_, _, _, dbScripted_killed hrun, ?_, Relates.gone hdisk' hdiskWithin⟩
      rw [hevent]
      exact .cutBefore a c
    · refine ⟨_, _, _, dbScripted_killed hrun, ?_, Relates.gone hdisk' hwithin⟩
      rw [hevent]
      exact .cutAfter a c

/-- Every call is an event of the store, and what it finds is what the store holds. -/
theorem dbScripted_step (h : Relates path keys s a) (hkeys : keys.dedup.length ≤ maxPairs)
    (hsound : Sound path script s c) (hc : c.Within keys) :
    ∃ s' answer a', (dbScripted path script).step s c = .ok (s', answer) ∧
      Durable.Step dbUpdate a (dbEvent c answer) a' ∧ Relates path keys s' a' ∧
      (c.updates = false → answer = none ∨ answer = some (dbMap.step a.current c).2) := by
  rcases s with ⟨self, w⟩
  by_cases hrestart : c = .restart
  · subst hrestart
    exact ⟨_, _, _, dbScripted_returned rfl, .restarted a, Relates.gone h.disk h.diskWithin,
      fun _ => Or.inr rfl⟩
  rcases getDB_scripted h hkeys (hsound.opens hrestart) with
    ⟨w₁, hfiles, hdead | ⟨d, self₁, hget, hdb, hrep⟩⟩
  · -- killed while it loaded the database
    have hrun : dbProc path self c script w = (.error .killed, w₁) := by
      rw [dbProc_eq]
      exact Proc.bind_error (beforeSave_killed hrestart hdead)
    have hgone : Relates path keys (.fresh, w₁) ⟨a.disk, none⟩ :=
      Relates.gone (h.disk.congr (congrFun hfiles path)) h.diskWithin
    refine ⟨_, _, _, dbScripted_killed hrun, ?_, hgone, fun _ => Or.inl rfl⟩
    rw [dbEvent]
    split_ifs
    · exact .cutBefore a c
    · exact .restarted a
  have hwithin : Within keys (dbUpdate a.current c) := h.currentWithin.update hc
  have hdisk : OnDisk path w₁ a.disk := h.disk.congr (congrFun hfiles path)
  rcases beforeSave_loaded hrestart hget hdb hrep (hwithin.size_le hkeys) with
    ⟨self', d', hdb', hrep', hbefore⟩
  cases hupdates : c.updates with
  | false =>
      rw [hupdates] at hbefore
      rcases dbScripted_question hrestart hupdates hbefore hdisk h.diskWithin hdb' hrep'
        h.currentWithin with ⟨s', a', hstep, hevent, hrelates⟩
      exact ⟨s', _, a', hstep, hevent, hrelates, fun _ => Or.inr rfl⟩
  | true =>
      simp only [hupdates, if_true] at hbefore
      rcases dbScripted_update hupdates hbefore (hsound.flushes self' d' w₁ hbefore) hdisk
        h.diskWithin hdb' hrep' hwithin with ⟨s', answer, a', hstep, hevent, hrelates⟩
      exact ⟨s', answer, a', hstep, hevent, hrelates, fun hfalse => by cases hfalse⟩

/-! ## Runs -/

/-- The length of a pair that is stored fits the fields of the file. -/
def DbCall.Fits : DbCall → Prop
  | .set key value => Database.Fits (key, value)
  | _ => True

/-- The keys that are stored. -/
def DbCall.key? : DbCall → Option Bytes
  | .set key _ => some key
  | _ => none

theorem DbCall.within {calls : List DbCall} (hc : c ∈ calls) (hfits : c.Fits) (front : List Bytes) :
    c.Within (front ++ calls.filterMap DbCall.key?) := by
  cases c with
  | set key value =>
      refine ⟨hfits, List.mem_append_right front ?_⟩
      exact List.mem_filterMap.mpr ⟨.set key value, hc, rfl⟩
  | get key => trivial
  | has key => trivial
  | delete key => trivial
  | restart => trivial

/-- What is left when a run from the map `m` has ended in `s`: the updates `kept` are on disk, and a
process sees those in `pending` too. -/
structure Preserved (path : Path) (script : Script) (m : OrderedMap Bytes Bytes)
    (calls : List DbCall) (s : Process × World) (answers : List (Option LuaReturn))
    (kept pending : List DbCall) : Prop where
  acknowledged : (Machine.history dbEvent (calls.zip answers)).acknowledged.Sublist kept
  issued : (kept ++ pending).Sublist (Machine.history dbEvent (calls.zip answers)).issued
  own : (Machine.history dbEvent (calls.zip answers)).own <:+ kept ++ pending
  file : OnDisk path s.2 (kept.foldl dbUpdate m)
  found : ∀ c s' answer, Sound path script s c → c.updates = false →
    (dbScripted path script).step s c = .ok (s', some answer) →
    answer = (dbMap.step ((kept ++ pending).foldl dbUpdate m) c).2

/-- A run in which the database file is opened and read when it is there, and no flush is lost on
the way to a rename, has no fault, whatever else fails or kills the game.  In the end the file is
complete and holds some of the updates in their order, all acknowledged ones among them; and the
process finds that and its own updates. -/
theorem db_durable (path : Path) (script : Script) (w : World) (m : OrderedMap Bytes Bytes)
    (calls : List DbCall) (hdisk : OnDisk path w m) (hm : ∀ e ∈ m.entries, Fits e)
    (hfits : ∀ c ∈ calls, c.Fits)
    (hroom : (m.keys ++ calls.filterMap DbCall.key?).dedup.length ≤ maxPairs)
    (hsound : (dbScripted path script).Along (Sound path script) (.fresh, w) calls) :
    ∃ s answers kept pending,
      (dbScripted path script).runFrom (.fresh, w) calls = .ok (s, answers) ∧
      Preserved path script m calls s answers kept pending := by
  have hstart : Relates path (m.keys ++ calls.filterMap DbCall.key?) (.fresh, w) ⟨m, none⟩ :=
    Relates.gone hdisk (fun e he =>
      ⟨hm e he, List.mem_append_left _ (List.mem_map.mpr ⟨e, he, rfl⟩)⟩)
  rcases Machine.runFrom_durable dbEvent dbUpdate
      (P := DbCall.Within (m.keys ++ calls.filterMap DbCall.key?))
      (fun s c a hR hG hP => by
        rcases dbScripted_step hR hroom hG hP with ⟨s', answer, a', hstep, hevent, hR', _⟩
        exact ⟨s', answer, a', hstep, hevent, hR'⟩)
      hstart calls hsound (fun c hc => DbCall.within hc (hfits c hc) _) with
    ⟨s, answers, a, kept, pending, hrun, hR, ha⟩
  refine ⟨s, answers, kept, pending, hrun, ha.acknowledged, ha.issued, ha.own, ?_, ?_⟩
  · rw [← ha.disk]
    exact hR.disk
  · intro c s' answer hsound' hquery hstep
    -- a question stores nothing, so it is within any keys
    have hwithin : c.Within (m.keys ++ calls.filterMap DbCall.key?) := by
      cases c with
      | set key value => cases hquery
      | get key => trivial
      | has key => trivial
      | delete key => trivial
      | restart => trivial
    rcases dbScripted_step hR hroom hsound' hwithin with ⟨_, answer', _, hstep', _, _, hanswer⟩
    obtain ⟨rfl, rfl⟩ := Prod.mk.inj (Except.ok.inj (hstep'.symm.trans hstep))
    rcases hanswer hquery with hnone | hsome
    · cases hnone
    · rw [← ha.current]
      exact Option.some.inj hsome

/-- The game is killed in the rename of its second save; started again it finds the first value. -/
theorem db_durable_killed :
    let script : Script := fun k => if k = 21 then .dies 0 else .done
    let calls : List DbCall := [.set [0x6b] [0x76], .set [0x6b] [0x77], .get [0x6b]]
    let w : World := ⟨fun _ => none, 0⟩
    (∃ r, (dbScripted [0x64] script).runFrom (.fresh, w) calls = .ok r ∧
      r.2 = [some (.boolean true), none, some (.string [0x76])]) ∧
    ∃ s answers kept pending,
      (dbScripted [0x64] script).runFrom (.fresh, w) calls = .ok (s, answers) ∧
      Preserved [0x64] script OrderedMap.empty calls s answers kept pending := by
  intro script calls w
  have hnever : ∀ n kept, script n ≠ .fails kept := by
    intro n kept hfate
    simp only [script] at hfate
    split_ifs at hfate
  have hrun : ∃ r, (dbScripted [0x64] script).runFrom (.fresh, w) calls = .ok r ∧
      r.2 = [some (.boolean true), none, some (.string [0x76])] := by
    rcases Fallible.exists_ok_of_any
      (x := (dbScripted [0x64] script).runFrom (.fresh, w) calls)
      (p := fun r => decide (r.2 = [some (.boolean true), none, some (.string [0x76])]))
      (by decide +kernel) with ⟨r, hr, hanswers⟩
    exact ⟨r, hr, of_decide_eq_true hanswers⟩
  refine ⟨hrun, db_durable [0x64] script w OrderedMap.empty calls (Or.inl ⟨rfl, rfl⟩)
    (fun e he => by cases he) ?_ ?_ (Machine.along_of_forall (fun s c => ⟨?_, ?_⟩) _ _)⟩
  · simp [calls, DbCall.Fits, Database.Fits]
  · exact le_trans (b := 1) (by decide) (by decide)
  · exact fun _ _ _ _ _ _ kept => hnever _ kept
  · exact fun _ _ _ _ kept hlate => hnever _ kept hlate.flush

end Database
end KnShim
