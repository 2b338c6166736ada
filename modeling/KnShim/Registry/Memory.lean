import KnShim.Database.SaveDict
import KnShim.HashTable.Ownership
import KnShim.HashTable.Refinement
import KnShim.Lua.Value

/-!
# Memory — the registry when memory runs out

`knRegSet`, `knRegGet`, `knRegHas`, `knRegDelete` and `knRegCount` work on the dictionary
`gRegistry`.  `regList` is what they are for: an ordered map on which a call that does not get its
blobs is refused and has no effect.

The code does not look at what `KH_CreateBlob` returns.  A `NULL` key is dereferenced at once, and a
`NULL` value is stored and reported as a success.  `reg_answers_iff` says that a run is right exactly
when no allocation of a blob fails, but for the value of a set that is refused anyway.
-/

namespace KnShim
namespace Registry

open Lib HashTable Lua
open Database (deref)

/-! ## The registry functions -/

/-- A process: `gRegistry`, and the number of heap blocks given out for blobs. -/
structure Process where
  gRegistry : Option Dict
  blocks : Nat

/-- A process that has just been started. -/
def Process.fresh : Process := ⟨none, 0⟩

/-- Which allocations of a `knRegSet` succeed: its two blobs, and the tables. -/
structure Memory where
  key : Bool
  value : Bool
  table : TableAlloc

/-- Everything is granted but tables of more than `2 ^ 32` slots. -/
def Memory.ample : Memory := ⟨true, true, .upTo (2 ^ 32)⟩

/-- `GetReg`; the block of `KH_CreateDict` is granted. -/
def getReg (self : Process) : Dict × Process :=
  match self.gRegistry with
  | some dict => (dict, self)
  | none => (createDict, { self with gRegistry := some createDict })

/-- `knBufToBlob`. -/
def knBufToBlob (granted : Bool) (self : Process) (bytes : Bytes) :
    Fallible (Option Blob × Process) := do
  let blob ← createBlob (if granted then some self.blocks else none) (some bytes) bytes.length
  return (blob, { self with blocks := self.blocks + 1 })

/-- `knRegSet`, on what `lua_tolstring` makes of each argument; it returns what it pushes. -/
def knRegSet (memory : Memory) (self : Process) :
    List (Option Bytes) → Fallible (Process × List Value)
  | some key :: some value :: _ => do
      let (reg, self) := getReg self
      let (key, self) ← knBufToBlob memory.key self key
      let (value, self) ← knBufToBlob memory.value self value
      let key ← deref key
      let o ← dictSet memory.table reg key value
      return ({ self with gRegistry := some o.dict }, [.boolean o.result])
  | _ => return (self, [.nil])

/-- `knRegGet`. -/
def knRegGet (granted : Bool) (self : Process) :
    List (Option Bytes) → Fallible (Process × List Value)
  | some key :: _ => do
      let (reg, self) := getReg self
      let (key, self) ← knBufToBlob granted self key
      let key ← deref key
      let o ← dictGet reg key
      match o.result with
      | none => return (self, [.nil])
      | some value => return (self, [.string value.data])
  | _ => return (self, [.nil])

/-- `knRegHas`. -/
def knRegHas (granted : Bool) (self : Process) :
    List (Option Bytes) → Fallible (Process × List Value)
  | some key :: _ => do
      let (reg, self) := getReg self
      let (key, self) ← knBufToBlob granted self key
      let key ← deref key
      let o ← dictHas reg key
      return (self, [.boolean o.result])
  | _ => return (self, [.nil])

/-- `knRegDelete`. -/
def knRegDelete (granted : Bool) (self : Process) :
    List (Option Bytes) → Fallible (Process × List Value)
  | some key :: _ => do
      let (reg, self) := getReg self
      let (key, self) ← knBufToBlob granted self key
      let key ← deref key
      let o ← dictDelete reg key
      return ({ self with gRegistry := some o.dict }, [])
  | _ => return (self, [])

/-- `knRegCount`; `lua_Integer` has `w` bits. -/
def knRegCount (w : Nat) (self : Process) : Process × List Value :=
  let (reg, self) := getReg self
  (self, [.ofInteger (BitVec.ofNat w (dictLen reg))])

/-! ## Runs -/

/-- A call from a script: which of its allocations succeed, and its arguments. -/
inductive RegCall where
  | set (memory : Memory) (args : List (Option Bytes))
  | get (granted : Bool) (args : List (Option Bytes))
  | has (granted : Bool) (args : List (Option Bytes))
  | delete (granted : Bool) (args : List (Option Bytes))
  | count

def regCall (w : Nat) (self : Process) : RegCall → Fallible (Process × List Value)
  | .set memory args => knRegSet memory self args
  | .get granted args => knRegGet granted self args
  | .has granted args => knRegHas granted self args
  | .delete granted args => knRegDelete granted self args
  | .count => .ok (knRegCount w self)

/-- The pairs of the registry, in order; `none` is a `NULL`. -/
def Process.contents (self : Process) : List (Option Bytes × Option Bytes) :=
  match self.gRegistry with
  | none => []
  | some dict => dict.live.map (fun pair => (pair.key.map Blob.data, pair.value.map Blob.data))

/-- A step also shows what the registry holds after it. -/
def regMachine (w : Nat) :
    Machine Process RegCall (List Value × List (Option Bytes × Option Bytes)) where
  init := .fresh
  step := fun self c => do
    let (self, values) ← regCall w self c
    return (self, values, self.contents)

/-! ## The ordered map -/

/-- What a call is to answer.  One that does not get its blobs is `refused`. -/
inductive RegAnswer where
  | refused
  | nothing
  | nil
  | flag (result : Bool)
  | text (bytes : Bytes)
  | count (n : Nat)

def regStep (a : ListDict) : RegCall → ListDict × RegAnswer
  | .set memory (some key :: some value :: _) =>
      if memory.key && memory.value then
        ((a.set memory.table key value).1, .flag (a.set memory.table key value).2)
      else (a, .refused)
  | .set _ _ => (a, .nil)
  | .get granted (some key :: _) =>
      (a, if granted then (a.map.lookup key).elim .nil .text else .refused)
  | .get _ _ => (a, .nil)
  | .has granted (some key :: _) =>
      (a, if granted then .flag (a.map.contains key) else .refused)
  | .has _ _ => (a, .nil)
  | .delete granted (some key :: _) =>
      if granted then (⟨a.map.erase key, a.capacity⟩, .nothing) else (a, .refused)
  | .delete _ _ => (a, .nothing)
  | .count => (a, .count a.map.size)

def regList : Spec ListDict RegCall (RegAnswer × List (Bytes × Bytes)) where
  init := ListDict.empty
  step := fun a c => ((regStep a c).1, (regStep a c).2, (regStep a c).1.map.entries)

/-- The values that give an answer.  A refusal may be nil or false. -/
def RegAnswer.Matches (w : Nat) : RegAnswer → List Value → Prop
  | .refused, values => values = [] ∨ values = [.nil] ∨ values = [.boolean false]
  | .nothing, values => values = []
  | .nil, values => values = [.nil]
  | .flag result, values => values = [.boolean result]
  | .text bytes, values => values = [.string bytes]
  | .count n, values => values = [.ofInteger (BitVec.ofNat w n)]

/-- The answer is given, and the registry holds the entries of the map. -/
def Agrees (w : Nat) (wanted : RegAnswer × List (Bytes × Bytes))
    (got : List Value × List (Option Bytes × Option Bytes)) : Prop :=
  wanted.1.Matches w got.1 ∧ got.2 = wanted.2.map (fun e => (some e.1, some e.2))

/-- The tables of the call have at most `2 ^ 32` slots. -/
def RegCall.Limited : RegCall → Prop
  | .set memory _ => ∀ n, memory.table.grants n = true → n ≤ 2 ^ 32
  | _ => True

/-- The call gets its blobs, or has no use for the one that it does not get: the value of a set that
is refused. -/
def RegCall.Granted (a : ListDict) : RegCall → Prop
  | .set memory (some key :: some value :: _) =>
      memory.key = true ∧
        (memory.value = true ∨ (a.set memory.table key value).2 = false)
  | .get granted (some _ :: _) => granted = true
  | .has granted (some _ :: _) => granted = true
  | .delete granted (some _ :: _) => granted = true
  | _ => True

/-! ## The calls -/

/-- The registry holds the entries of the list. -/
structure Holds (s : Process) (a : ListDict) : Prop where
  represents : Represents (getReg s).1 a.map
  capacity : (getReg s).1.dataAlloced = a.capacity
  contents : s.contents = a.map.entries.map (fun e => (some e.1, some e.2))

variable {w : Nat} {self : Process} {a : ListDict}

theorem live_represents {d : Dict} {m : OrderedMap Bytes Bytes} (h : Represents d m) :
    d.live.map (fun pair => (pair.key.map Blob.data, pair.value.map Blob.data)) =
      m.entries.map (fun e => (some e.1, some e.2)) := by
  apply List.ext_getElem?
  intro i
  rw [List.getElem?_map, List.getElem?_map, Dict.live]
  by_cases hi : i < d.dataCount
  · rcases h.entry hi with ⟨key, value, hpair, hentry⟩
    simp [List.getElem?_take_of_lt hi, hpair, hentry]
  · have hge : d.dataCount ≤ i := Nat.le_of_not_lt hi
    have hlen : m.entries.length ≤ i := by rw [h.length]; exact hge
    simp [hge, hlen]

theorem Holds.of_represents {d : Dict} {m : OrderedMap Bytes Bytes} {capacity : Nat}
    (h : Represents d m) (hcap : d.dataAlloced = capacity) (blocks : Nat) :
    Holds ⟨some d, blocks⟩ ⟨m, capacity⟩ where
  represents := h
  capacity := hcap
  contents := live_represents h

/-- Fetching the registry and making a blob change nothing that shows. -/
theorem Holds.fetched (h : Holds self a) (blocks : Nat) :
    Holds ⟨(getReg self).2.gRegistry, blocks⟩ a := by
  have hsome : (getReg self).2.gRegistry = some (getReg self).1 := by
    cases hreg : self.gRegistry <;> simp [getReg, hreg]
  rw [hsome]
  exact .of_represents h.represents h.capacity blocks

theorem knBufToBlob_granted (self : Process) (bytes : Bytes) :
    knBufToBlob true self bytes =
      .ok (some (.ofBytes self.blocks bytes), { self with blocks := self.blocks + 1 }) := by
  cases bytes with
  | nil => rfl
  | cons b bs => simp [knBufToBlob, createBlob, readBuffer]

theorem knBufToBlob_failed (self : Process) (bytes : Bytes) :
    knBufToBlob false self bytes = .ok (none, { self with blocks := self.blocks + 1 }) := rfl

/-- The step of a call that returns. -/
theorem regMachine_step {self' : Process} {c : RegCall} {values : List Value}
    (h : regCall w self c = .ok (self', values)) :
    (regMachine w).step self c = .ok (self', values, self'.contents) := by
  simp [regMachine, h]

/-- A call that answers as it should and leaves the entries of the map is right. -/
theorem regMachine_agrees {self' : Process} {c : RegCall} {values : List Value}
    (hcall : regCall w self c = .ok (self', values))
    (hmatch : (regStep a c).2.Matches w values) (h : Holds self' (regStep a c).1) :
    ∃ s' o, (regMachine w).step self c = .ok (s', o) ∧ Agrees w (regList.step a c).2 o ∧
      Holds s' (regList.step a c).1 :=
  ⟨self', (values, self'.contents), regMachine_step hcall, ⟨hmatch, h.contents⟩, h⟩

/-- Without its key a call dereferences `NULL`. -/
theorem knRegSet_no_key {memory : Memory} (hkey : memory.key = false) (key value : Bytes)
    (rest : List (Option Bytes)) :
    knRegSet memory self (some key :: some value :: rest) = .error .nullDeref := by
  cases hvalue : memory.value <;>
    simp [knRegSet, hkey, hvalue, knBufToBlob_failed, knBufToBlob_granted, deref]

theorem knRegSet_key {memory : Memory} (hkey : memory.key = true) (key value : Bytes)
    (rest : List (Option Bytes)) :
    knRegSet memory self (some key :: some value :: rest) =
      dictSet memory.table (getReg self).1 (.ofBytes (getReg self).2.blocks key)
          (if memory.value then some (.ofBytes ((getReg self).2.blocks + 1) value) else none) >>=
        fun o => .ok (⟨some o.dict, (getReg self).2.blocks + 2⟩, [.boolean o.result]) := by
  cases hvalue : memory.value <;>
    simp [knRegSet, hkey, hvalue, knBufToBlob_failed, knBufToBlob_granted, deref]

/-- A set that gets its blobs is the set of the list. -/
theorem Holds.set (h : Holds self a) {memory : Memory} (hkey : memory.key = true)
    (hvalue : memory.value = true) (hlimit : ∀ n, memory.table.grants n = true → n ≤ 2 ^ 32)
    (key value : Bytes) (rest : List (Option Bytes)) :
    ∃ self', knRegSet memory self (some key :: some value :: rest) =
        .ok (self', [.boolean (a.set memory.table key value).2]) ∧
      Holds self' (a.set memory.table key value).1 := by
  rcases h.represents.dictSet memory.table (.ofBytes (getReg self).2.blocks key)
    (.ofBytes ((getReg self).2.blocks + 1) value) (fun _ _ hgrant => hlimit _ hgrant) with
    ⟨o, ho, hres, hrep, hcap⟩
  rw [h.capacity] at hres hrep hcap
  refine ⟨⟨some o.dict, (getReg self).2.blocks + 2⟩, ?_, .of_represents hrep hcap _⟩
  rw [knRegSet_key hkey, if_pos hvalue, ho, Fallible.ok_bind, hres]
  rfl

/-- A set that only lacks its value answers as if it had it, and has no effect when it is refused. -/
theorem Holds.set_null (h : Holds self a) {memory : Memory} (hkey : memory.key = true)
    (hvalue : memory.value = false) (hlimit : ∀ n, memory.table.grants n = true → n ≤ 2 ^ 32)
    (key value : Bytes) (rest : List (Option Bytes)) :
    ∃ self', knRegSet memory self (some key :: some value :: rest) =
        .ok (self', [.boolean (a.set memory.table key value).2]) ∧
      ((a.set memory.table key value).2 = false → Holds self' a) := by
  rcases h.represents.dictSet_null memory.table (.ofBytes (getReg self).2.blocks key) value
    (fun _ _ hgrant => hlimit _ hgrant) with ⟨o, ho, hres, hsame⟩
  rw [h.capacity, Blob.ofBytes_data] at hres
  refine ⟨⟨some o.dict, (getReg self).2.blocks + 2⟩, ?_, ?_⟩
  · have hnone : ¬ memory.value = true := by simp [hvalue]
    rw [knRegSet_key hkey, if_neg hnone, ho, Fallible.ok_bind, hres]
  · intro hrefused
    rw [hsame (hres.trans hrefused)]
    exact .of_represents h.represents h.capacity _

theorem Holds.get (h : Holds self a) (key : Bytes) (rest : List (Option Bytes)) :
    ∃ self' values, knRegGet true self (some key :: rest) = .ok (self', values) ∧
      ((a.map.lookup key).elim .nil .text : RegAnswer).Matches w values ∧ Holds self' a := by
  rcases h.represents.wf.dictGet_eq (.ofBytes (getReg self).2.blocks key) with ⟨r, hfound, hr⟩
  have hlookup := (h.represents.found_iff hfound).2
  rw [Blob.ofBytes_data] at hlookup
  have hholds := h.fetched ((getReg self).2.blocks + 1)
  -- the value is there exactly when the map has one
  cases hvalue : r.bind (getReg self).1.valueAt with
  | none =>
      refine ⟨_, [.nil], ?_, ?_, hholds⟩
      · simp [knRegGet, knBufToBlob_granted, deref, hr, hvalue]
      · rw [← hlookup, hvalue]
        rfl
  | some value =>
      refine ⟨_, [.string value.data], ?_, ?_, hholds⟩
      · simp [knRegGet, knBufToBlob_granted, deref, hr, hvalue]
      · rw [← hlookup, hvalue]
        rfl

theorem Holds.has (h : Holds self a) (key : Bytes) (rest : List (Option Bytes)) :
    ∃ self', knRegHas true self (some key :: rest) =
        .ok (self', [.boolean (a.map.contains key)]) ∧ Holds self' a := by
  rcases h.represents.wf.dictHas_eq (.ofBytes (getReg self).2.blocks key) with ⟨r, hfound, hr⟩
  have hhas := (h.represents.found_iff hfound).1
  rw [Blob.ofBytes_data] at hhas
  refine ⟨_, ?_, h.fetched ((getReg self).2.blocks + 1)⟩
  simp [knRegHas, knBufToBlob_granted, deref, hr, hhas]

theorem Holds.delete (h : Holds self a) (key : Bytes) (rest : List (Option Bytes)) :
    ∃ self', knRegDelete true self (some key :: rest) = .ok (self', []) ∧
      Holds self' ⟨a.map.erase key, a.capacity⟩ := by
  rcases h.represents.dictDelete (.ofBytes (getReg self).2.blocks key) with
    ⟨o, ho, _, hrep, hcap⟩
  refine ⟨⟨some o.dict, (getReg self).2.blocks + 1⟩, ?_,
    .of_represents hrep (hcap.trans h.capacity) _⟩
  simp [knRegDelete, knBufToBlob_granted, deref, ho]

/-! ## Steps -/

/-- A call that gets what it needs is answered as on the ordered map. -/
theorem regCall_granted (self : Process) (a : ListDict) (c : RegCall) (h : Holds self a)
    (hlimit : c.Limited) (hc : c.Granted a) :
    ∃ s' o, (regMachine w).step self c = .ok (s', o) ∧ Agrees w (regList.step a c).2 o ∧
      Holds s' (regList.step a c).1 := by
  cases c with
  | set memory args =>
      rcases args with _ | ⟨_ | key, _ | ⟨_ | value, rest⟩⟩
      case cons.some.cons.some =>
        rcases hc with ⟨hkey, hvalue⟩
        cases hv : memory.value with
        | true =>
            rcases h.set hkey hv hlimit key value rest with ⟨self', hcall, hholds⟩
            refine regMachine_agrees hcall ?_ ?_
            · simp [regStep, hkey, hv, RegAnswer.Matches]
            · simpa [regStep, hkey, hv] using hholds
        | false =>
            -- the value is missing, but the set is refused before it is stored
            have hrefused : (a.set memory.table key value).2 = false := by simpa [hv] using hvalue
            rcases h.set_null hkey hv hlimit key value rest with ⟨self', hcall, hholds⟩
            refine regMachine_agrees hcall ?_ ?_
            · simp [regStep, hkey, hv, RegAnswer.Matches, hrefused]
            · simpa [regStep, hkey, hv] using hholds hrefused
      all_goals exact regMachine_agrees rfl rfl h
  | get granted args =>
      rcases args with _ | ⟨_ | key, rest⟩
      case cons.some =>
        obtain rfl : granted = true := hc
        rcases h.get key rest with ⟨self', values, hcall, hmatch, hholds⟩
        exact regMachine_agrees hcall hmatch hholds
      all_goals exact regMachine_agrees rfl rfl h
  | has granted args =>
      rcases args with _ | ⟨_ | key, rest⟩
      case cons.some =>
        obtain rfl : granted = true := hc
        rcases h.has key rest with ⟨self', hcall, hholds⟩
        exact regMachine_agrees hcall rfl hholds
      all_goals exact regMachine_agrees rfl rfl h
  | delete granted args =>
      rcases args with _ | ⟨_ | key, rest⟩
      case cons.some =>
        obtain rfl : granted = true := hc
        rcases h.delete key rest with ⟨self', hcall, hholds⟩
        exact regMachine_agrees hcall rfl hholds
      all_goals exact regMachine_agrees rfl rfl h
  | count =>
      have hvalues : RegAnswer.Matches w (.count a.map.size)
          [.ofInteger (BitVec.ofNat w (dictLen (getReg self).1))] := by
        rw [h.represents.size]
        rfl
      exact regMachine_agrees rfl hvalues (h.fetched (getReg self).2.blocks)

/-- A call that does not get a blob it needs faults, or stores `NULL` and reports a success. -/
theorem regCall_not_granted (self : Process) (a : ListDict) (c : RegCall) (h : Holds self a)
    (hlimit : c.Limited) (hc : ¬ c.Granted a) (s' : Process)
    (o : List Value × List (Option Bytes × Option Bytes))
    (hstep : (regMachine w).step self c = .ok (s', o)) : ¬ Agrees w (regList.step a c).2 o := by
  rcases Fallible.bind_eq_ok.mp hstep with ⟨⟨self', values⟩, hcall, heq⟩
  cases heq
  cases c with
  | set memory args =>
      rcases args with _ | ⟨_ | key, _ | ⟨_ | value, rest⟩⟩
      case cons.some.cons.some =>
        cases hkey : memory.key with
        | false =>
            rw [regCall, knRegSet_no_key hkey] at hcall
            cases hcall
        | true =>
            have hboth : memory.value = false ∧ (a.set memory.table key value).2 = true := by
              simpa [RegCall.Granted, hkey] using hc
            rcases h.set_null hkey hboth.1 hlimit key value rest with ⟨self₁, hcall₁, _⟩
            rw [regCall, hcall₁, hboth.2] at hcall
            cases hcall
            simp [Agrees, regList, regStep, hboth.1, RegAnswer.Matches]
      all_goals exact absurd trivial hc
  | get granted args =>
      rcases args with _ | ⟨_ | key, rest⟩
      case cons.some =>
        obtain rfl : granted = false := Bool.eq_false_iff.mpr hc
        cases hcall
      all_goals exact absurd trivial hc
  | has granted args =>
      rcases args with _ | ⟨_ | key, rest⟩
      case cons.some =>
        obtain rfl : granted = false := Bool.eq_false_iff.mpr hc
        cases hcall
      all_goals exact absurd trivial hc
  | delete granted args =>
      rcases args with _ | ⟨_ | key, rest⟩
      case cons.some =>
        obtain rfl : granted = false := Bool.eq_false_iff.mpr hc
        cases hcall
      all_goals exact absurd trivial hc
  | count => exact absurd trivial hc

theorem holds_fresh : Holds .fresh ListDict.empty where
  represents := represents_createDict
  capacity := rfl
  contents := rfl

/-- On tables of at most `2 ^ 32` slots: a run answers as the ordered map, and the registry holds its
entries after every call, exactly when every call gets the blobs that it needs. -/
theorem reg_answers_iff (w : Nat) (calls : List RegCall) (hlimit : ∀ c ∈ calls, c.Limited) :
    (∃ s outputs, (regMachine w).run calls = .ok (s, outputs) ∧
        List.Forall₂ (Agrees w) (regList.answers regList.init calls) outputs) ↔
      regList.Admits (fun a c => c.Granted a) regList.init calls :=
  Machine.runFrom_matches_iff (G := fun _ c => c.Limited) regCall_granted regCall_not_granted
    calls _ _ holds_fresh (regList.admits_of_forall calls _ hlimit)

/-- A set that lacks its value but is refused for want of a table, one that succeeds, and a
deletion. -/
theorem reg_answers_refused :
    let calls : List RegCall :=
      [.set ⟨true, false, .upTo 0⟩ [some [1], some [10]], .set .ample [some [1], some [11]],
        .get true [some [1]], .delete true [some [1]], .has true [some [1]], .count]
    ∃ s outputs, (regMachine 32).run calls = .ok (s, outputs) ∧
      List.Forall₂ (Agrees 32) (regList.answers regList.init calls) outputs := by
  intro calls
  have hlimit : ∀ c ∈ calls, c.Limited := by
    have h₀ : ∀ n, (TableAlloc.upTo 0).grants n = true → n ≤ 2 ^ 32 :=
      fun n => TableAlloc.upTo_limited (Nat.zero_le _)
    have h₁ : ∀ n, (TableAlloc.upTo (2 ^ 32)).grants n = true → n ≤ 2 ^ 32 :=
      fun n => TableAlloc.upTo_limited (Nat.le_refl _)
    simp only [calls, List.forall_mem_cons]
    exact ⟨h₀, h₁, trivial, trivial, trivial, trivial, fun c hc => by cases hc⟩
  exact (reg_answers_iff 32 calls hlimit).mpr
    ⟨⟨rfl, Or.inr rfl⟩, ⟨rfl, Or.inl rfl⟩, rfl, rfl, rfl, trivial, trivial⟩

/-- The first set lacks its value, and is reported as a success.  When the fifth of the others makes
the table grow, the registry loses everything but that last pair. -/
theorem reg_not_agrees :
    let set (key : UInt8) : RegCall := .set .ample [some [key], some [0]]
    let calls : List RegCall :=
      [.set ⟨true, false, .upTo (2 ^ 32)⟩ [some [0], some [0]], set 1, set 2, set 3, set 4, set 5,
        .has true [some [1]]]
    (∃ s outputs, (regMachine 32).run calls = .ok (s, outputs) ∧
        outputs.map Prod.fst = [[.boolean true], [.boolean true], [.boolean true], [.boolean true],
          [.boolean true], [.boolean true], [.boolean false]] ∧
        outputs.getLast? = some ([.boolean false], [(some [5], some [0])])) ∧
      ¬ ∃ s outputs, (regMachine 32).run calls = .ok (s, outputs) ∧
        List.Forall₂ (Agrees 32) (regList.answers regList.init calls) outputs := by
  intro set calls
  have hrun : ((regMachine 32).run calls).toOption.any (fun r =>
      decide (r.2.map Prod.fst = [[.boolean true], [.boolean true], [.boolean true],
          [.boolean true], [.boolean true], [.boolean true], [.boolean false]] ∧
        r.2.getLast? = some ([.boolean false], [(some [5], some [0])]))) = true := by
    decide +kernel
  rcases Fallible.exists_ok_of_any hrun with ⟨⟨s, outputs⟩, hok, hout⟩
  rcases of_decide_eq_true hout with ⟨hfirst, hlast⟩
  refine ⟨⟨s, outputs, hok, hfirst, hlast⟩, ?_⟩
  rintro ⟨s', outputs', hok', hagree⟩
  rw [hok] at hok'
  cases hok'
  -- the first answer is true, where the call was to be refused
  cases hagree with
  | cons hhead _ =>
      have hvalues : _ = [Value.boolean true] := (List.cons.inj hfirst).1
      simp [Agrees, regList, regStep, RegAnswer.Matches, hvalues] at hhead

end Registry
end KnShim
