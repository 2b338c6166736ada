import KnShim.HashTable.KeyOrder
import KnShim.Lib.Bits
import KnShim.Lua.Frame
import KnShim.Registry.Memory

/-!
# Keys — the table that `knRegKeys` returns

`knRegKeys` makes a table, pushes it, and assigns each key to its number.  It assigns to the value
in slot 1, which is the new table only when the script passed no argument.

What an assignment to a value of the script does is up to that value: a metamethod may run, and may
also call the registry.  `assign` stands for it, and `none` is a Lua error.  `regKeys_iff` holds for
every `assign`: the keys are listed exactly when there is no argument, or no key.
-/

namespace KnShim
namespace Registry

open Lib HashTable Lua
open Database (deref)

variable {W V : Type}

/-! ## The Lua stack -/

/-- A value on the stack: an argument, the new table, or what is pushed to be assigned. -/
inductive Item (V : Type) where
  | caller (v : V)
  | fresh
  | number (n : Number)
  | text (bs : Bytes)

/-- What the call works on: the process, all that the values of the script refer to, the table that
the call makes, and the stack. -/
structure Script (W V : Type) where
  process : Process
  world : W
  fresh : OrderedMap Number Bytes
  frame : Frame (Item V)

/-- `lua_createtable`. -/
def luaCreateTable (script : Script W V) : Script W V :=
  { script with fresh := OrderedMap.empty, frame := script.frame.push .fresh }

/-- `lua_pushinteger`. -/
def luaPushInteger {w : Nat} (script : Script W V) (n : BitVec w) : Script W V :=
  { script with frame := script.frame.push (.number (.ofInt n.toInt)) }

/-- `lua_pushlstring`. -/
def luaPushLString (script : Script W V) (bs : Bytes) : Script W V :=
  { script with frame := script.frame.push (.text bs) }

variable (assign : Process → W → V → Number → Bytes → Option (Process × W))

/-- `lua_settable`, of a string at a number. -/
def luaSetTable (script : Script W V) (index : Nat) : Option (Script W V) :=
  match script.frame.fromTop? 2, script.frame.fromTop? 1, script.frame.get? index with
  | some (.number key), some (.text value), some .fresh =>
      some { script with fresh := script.fresh.put key value, frame := script.frame.pop 2 }
  | some (.number key), some (.text value), some (.caller v) =>
      (assign script.process script.world v key value).map (fun r =>
        { script with process := r.1, world := r.2, frame := script.frame.pop 2 })
  | _, _, _ => none

/-! ## `knRegKeys` -/

variable (w : Nat)

/-- The loop of `knRegKeys`.  A metamethod may add keys while it runs, so it need not end. -/
def knRegKeysLoop : Nat → Nat → Script W V → Fallible (Option (Script W V))
  | 0, _, _ => .error .nonTermination
  | fuel + 1, i, script => do
      let (reg, process) := getReg script.process
      let script := { script with process := process }
      if i < dictLen reg then do
        let script := luaPushInteger script (BitVec.ofNat w (i + 1))
        let blob ← dictKeyIter reg i
        let blob ← deref blob
        match luaSetTable assign (luaPushLString script blob.data) 1 with
        | none => return none
        | some script => knRegKeysLoop fuel (i + 1) script
      else
        return some script

/-- `knRegKeys`, with the number of values that it returns; `lua_Integer` has `w` bits. -/
def knRegKeys (fuel : Nat) (self : Process) (world : W) (args : List V) :
    Fallible (Option (Script W V × Nat)) := do
  let script : Script W V := ⟨self, world, OrderedMap.empty, .enter (args.map .caller)⟩
  match ← knRegKeysLoop assign w fuel 0 (luaCreateTable script) with
  | none => return none
  | some script => return some (script, 1)

/-! ## What it is to do -/

/-- The keys of the registry, in the order of insertion. -/
def Process.keys (self : Process) : List Bytes := (getReg self).1.keys

/-- The table has the strings at 1, 2, … and nothing else. -/
structure IsArray (t : OrderedMap Number Bytes) (xs : List Bytes) : Prop where
  size : t.size = xs.length
  get : ∀ i : Nat, 1 ≤ i → i ≤ xs.length → t.lookup (.ofInt i) = xs[i - 1]?

/-- The call returns a table that it has made, with the keys, and changes nothing of the script. -/
def ListsKeys (self : Process) (world : W) (args : List V) : Prop :=
  ∃ fuel script n, knRegKeys assign w fuel self world args = .ok (some (script, n)) ∧
    script.frame.Returns n .fresh ∧ IsArray script.fresh self.keys ∧ script.world = world

/-- The numbers up to `n` are a `lua_Integer` and a `double`. -/
def CountsExactly (n : Nat) : Prop := n < 2 ^ (w - 1) ∧ n ≤ 2 ^ 53

/-! ## The numbers -/

/-- What is on the stack after `lua_pushinteger` of `n`. -/
def pushedNumber (n : Nat) : Number := .ofInt (BitVec.ofNat w n).toInt

/-- The pairs that the loop assigns from key `i` on. -/
def numbered (i : Nat) (keys : List Bytes) : List (Number × Bytes) :=
  (keys.zipIdx i).map (fun e => (pushedNumber w (e.2 + 1), e.1))

variable {w} {n : Nat} {xs : List Bytes}

theorem numbered_cons (i : Nat) (key : Bytes) (keys : List Bytes) :
    numbered w i (key :: keys) = (pushedNumber w (i + 1), key) :: numbered w (i + 1) keys := by
  rw [numbered, List.zipIdx_cons]
  rfl

theorem length_numbered (i : Nat) (keys : List Bytes) : (numbered w i keys).length = keys.length := by
  simp [numbered]

theorem numbered_getElem? {i : Nat} (hi : i < xs.length) :
    (numbered w 0 xs)[i]? = some (pushedNumber w (i + 1), xs[i]) := by
  simp [numbered, hi]

theorem numbered_fst (xs : List Bytes) :
    (numbered w 0 xs).map Prod.fst =
      (List.range xs.length).map (fun i => pushedNumber w (i + 1)) := by
  have hsnd : xs.zipIdx.map Prod.snd = List.range xs.length := by
    rw [List.zipIdx_map_snd, List.range_eq_range']
  rw [numbered, List.map_map, ← hsnd, List.map_map]
  rfl

/-- A number that counts exactly is pushed as itself. -/
theorem pushedNumber_eq (h : n < 2 ^ (w - 1)) : pushedNumber w n = .ofInt n := by
  rw [pushedNumber, toInt_ofNat_of_lt h]

theorem isArray_numbered (h : CountsExactly w xs.length) :
    IsArray (OrderedMap.empty.putAll (numbered w 0 xs)) xs := by
  have hpushed : ∀ i < xs.length, pushedNumber w (i + 1) = .finite ((i + 1 : Nat) : Int) := by
    intro i hi
    have hsmall : ((i + 1 : Nat) : Int).natAbs ≤ 2 ^ 53 := by
      rw [Int.natAbs_natCast]
      exact le_trans hi h.2
    rw [pushedNumber_eq (lt_of_le_of_lt hi h.1), Number.ofInt_of_le hsmall]
  -- different keys get different numbers
  have hnodup : ((numbered w 0 xs).map Prod.fst).Nodup := by
    rw [numbered_fst]
    refine List.nodup_range.map_on (fun i hi j hj hij => ?_)
    rw [hpushed i (List.mem_range.mp hi), hpushed j (List.mem_range.mp hj)] at hij
    have hint : ((i + 1 : Nat) : Int) = ((j + 1 : Nat) : Int) :=
      Rat.intCast_inj.mp (Number.finite.inj hij)
    omega
  have hentries : (OrderedMap.empty.putAll (numbered w 0 xs)).entries = numbered w 0 xs :=
    OrderedMap.putAll_entries hnodup
  constructor
  · rw [OrderedMap.size, hentries, length_numbered]
  · intro i hpos hi
    have hlt : i - 1 < xs.length := by omega
    have hentry : (OrderedMap.empty.putAll (numbered w 0 xs)).entries[i - 1]? =
        some (pushedNumber w (i - 1 + 1), xs[i - 1]) := by
      rw [hentries, numbered_getElem? hlt]
    rw [Nat.sub_add_cancel hpos, pushedNumber_eq (lt_of_le_of_lt hi h.1)] at hentry
    rw [OrderedMap.lookup_of_entry hentry, List.getElem?_eq_getElem hlt]

/-- A `double` does not tell `2 ^ 53` and the number behind it apart. -/
theorem ofInt_collision : Number.ofInt (2 ^ 53 + 1 : Nat) = .ofInt (2 ^ 53 : Nat) := by
  decide +kernel

/-- Beyond that a number is not pushed, or two keys get the same one. -/
theorem countsExactly_of_isArray (h : IsArray (OrderedMap.empty.putAll (numbered w 0 xs)) xs) :
    CountsExactly w xs.length := by
  by_cases hw : w ≤ 54
  -- the integers are the first to end: `2 ^ (w - 1)` is pushed as a negative number
  · have hpow : 2 ^ (w - 1) ≤ 2 ^ 53 := Nat.pow_le_pow_right (by decide) (by omega)
    suffices hlt : xs.length < 2 ^ (w - 1) from ⟨hlt, le_trans hlt.le hpow⟩
    by_contra hge
    have hle : 2 ^ (w - 1) ≤ xs.length := Nat.le_of_not_lt hge
    have hpos : 1 ≤ 2 ^ (w - 1) := Nat.one_le_two_pow
    have hget := h.get _ hpos hle
    rw [List.getElem?_eq_getElem (by omega)] at hget
    rcases List.getElem?_of_mem (OrderedMap.lookup_eq_some_iff.mp hget) with ⟨k, hk⟩
    rcases OrderedMap.mem_keys_putAll.mp (OrderedMap.mem_keys_of_entry hk) with hmem | hmem
    · cases hmem
    rw [numbered_fst] at hmem
    rcases List.mem_map.mp hmem with ⟨j, _, hj⟩
    rcases toInt_bounds (BitVec.ofNat w (j + 1)) with ⟨hlow, hhigh⟩
    have hint : (BitVec.ofNat w (j + 1)).toInt = (2 ^ (w - 1) : Nat) := by
      rw [pushedNumber, Number.ofInt_of_le (by omega), Number.ofInt_of_le (by omega)] at hj
      exact Rat.intCast_inj.mp (Number.finite.inj hj)
    omega
  -- the doubles are the first to end: two numbers are rounded to `2 ^ 53`
  · have hpow : 2 ^ 54 ≤ 2 ^ (w - 1) := Nat.pow_le_pow_right (by decide) (by omega)
    suffices hle : xs.length ≤ 2 ^ 53 from ⟨by omega, hle⟩
    by_contra hgt
    have hnodup : ((numbered w 0 xs).map Prod.fst).Nodup :=
      OrderedMap.nodup_of_size_putAll (by rw [h.size, length_numbered])
    rw [numbered_fst] at hnodup
    have hsame : pushedNumber w (2 ^ 53 - 1 + 1) = pushedNumber w (2 ^ 53 + 1) := by
      rw [pushedNumber_eq (by omega), pushedNumber_eq (by omega), ofInt_collision]
      rfl
    have hinj := List.inj_on_of_nodup_map hnodup (List.mem_range.mpr (by omega))
      (List.mem_range.mpr (by omega)) hsame
    exact absurd hinj (by decide)

/-! ## The loop -/

variable {script script' : Script W V} {i : Nat}

@[simp] theorem getReg_getReg (self : Process) : getReg (getReg self).2 = getReg self := by
  cases hreg : self.gRegistry <;> simp [getReg, hreg]

@[simp] theorem keys_getReg (self : Process) : Process.keys (getReg self).2 = self.keys := by
  simp [Process.keys]

/-- With the new table in slot 1, a key is assigned to it. -/
theorem luaSetTable_fresh (h : script.frame.get? 1 = some .fresh) (n : BitVec w) (bs : Bytes) :
    luaSetTable assign (luaPushLString (luaPushInteger script n) bs) 1 =
      some { script with fresh := script.fresh.put (.ofInt n.toInt) bs } := by
  simp [luaSetTable, luaPushLString, luaPushInteger, Frame.get?_push (Frame.get?_push h _) _]

/-- With an argument in slot 1, it is assigned to that. -/
theorem luaSetTable_caller {v : V} (h : script.frame.get? 1 = some (.caller v)) (n : BitVec w)
    (bs : Bytes) :
    luaSetTable assign (luaPushLString (luaPushInteger script n) bs) 1 =
      (assign script.process script.world v (.ofInt n.toInt) bs).map (fun r =>
        { script with process := r.1, world := r.2 }) := by
  simp [luaSetTable, luaPushLString, luaPushInteger, Frame.get?_push (Frame.get?_push h _) _]

theorem knRegKeysLoop_done (h : (getReg script.process).1.Tidy)
    (hi : script.process.keys.length ≤ i) (fuel : Nat) :
    knRegKeysLoop assign w (fuel + 1) i script =
      .ok (some { script with process := (getReg script.process).2 }) := by
  have hnot : ¬ i < dictLen (getReg script.process).1 := by
    rw [dictLen, ← h.length_keys]
    exact Nat.not_lt.mpr hi
  simp [knRegKeysLoop, hnot]

/-- One round on the new table. -/
theorem knRegKeysLoop_round (h : (getReg script.process).1.Tidy)
    (hslot : script.frame.get? 1 = some .fresh) {key : Bytes}
    (hkey : script.process.keys[i]? = some key) (fuel : Nat) :
    knRegKeysLoop assign w (fuel + 1) i script =
      knRegKeysLoop assign w fuel (i + 1)
        { script with
          process := (getReg script.process).2
          fresh := script.fresh.put (pushedNumber w (i + 1)) key } := by
  have hi : i < (getReg script.process).1.dataCount := by
    rw [← h.length_keys]
    exact (List.getElem?_eq_some_iff.mp hkey).1
  rcases h.dictKeyIter_eq hi with ⟨blob, hiter, hdata⟩
  obtain rfl : blob.data = key := Option.some.inj (hdata.symm.trans hkey)
  let fetched : Script W V := { script with process := (getReg script.process).2 }
  have hfetched : fetched.frame.get? 1 = some .fresh := hslot
  have hset := luaSetTable_fresh assign hfetched (BitVec.ofNat w (i + 1)) blob.data
  simp only [fetched] at hset
  simp [knRegKeysLoop, dictLen, hi, hiter, deref, hset, pushedNumber]

/-- With the new table in slot 1, the loop puts the rest of the keys into it. -/
theorem knRegKeysLoop_fresh (rest : List Bytes) :
    ∀ (fuel i : Nat) (script : Script W V), (getReg script.process).1.Tidy →
      script.frame.get? 1 = some .fresh → script.process.keys.drop i = rest →
      knRegKeysLoop assign w fuel i script =
        if rest.length < fuel then
          .ok (some { script with
            process := (getReg script.process).2
            fresh := script.fresh.putAll (numbered w i rest) })
        else .error .nonTermination := by
  induction rest with
  | nil =>
      intro fuel i script h _ hrest
      cases fuel with
      | zero => rfl
      | succ fuel =>
          rw [knRegKeysLoop_done assign h (List.drop_eq_nil_iff.mp hrest)]
          exact (if_pos (Nat.succ_pos fuel)).symm
  | cons key rest ih =>
      intro fuel i script h hslot hrest
      cases fuel with
      | zero => rfl
      | succ fuel =>
          have hkey : script.process.keys[i]? = some key := by
            rw [← List.head?_drop, hrest]
            rfl
          have htail : script.process.keys.drop (i + 1) = rest := by
            rw [← List.tail_drop, hrest]
            rfl
          -- the round leaves a registry with the same keys
          have htidy : (getReg (getReg script.process).2).1.Tidy := by simpa using h
          have hround := ih fuel (i + 1)
            { script with
              process := (getReg script.process).2
              fresh := script.fresh.put (pushedNumber w (i + 1)) key } htidy hslot
            (by simpa using htail)
          rw [knRegKeysLoop_round assign h hslot hkey, hround, numbered_cons, OrderedMap.putAll_cons,
            getReg_getReg]
          simp only [List.length_cons, Nat.add_lt_add_iff_right]

/-- With an argument in slot 1, nothing gets into the new table. -/
theorem knRegKeysLoop_caller {v : V} (fuel : Nat) :
    ∀ (i : Nat) (script : Script W V), script.frame.get? 1 = some (.caller v) →
      knRegKeysLoop assign w fuel i script = .ok (some script') → script'.fresh = script.fresh := by
  induction fuel with
  | zero =>
      intro i script _ h
      cases h
  | succ fuel ih =>
      intro i script hslot h
      rw [knRegKeysLoop] at h
      dsimp only at h
      split_ifs at h with hi
      · rcases Fallible.bind_eq_ok.mp h with ⟨blob, _, h⟩
        rcases Fallible.bind_eq_ok.mp h with ⟨blob, _, h⟩
        let fetched : Script W V := { script with process := (getReg script.process).2 }
        have hfetched : fetched.frame.get? 1 = some (.caller v) := hslot
        have hset := luaSetTable_caller assign hfetched (BitVec.ofNat w (i + 1)) blob.data
        rw [hset] at h
        -- the argument either refuses the assignment or takes it
        cases hassign : assign (getReg script.process).2 script.world v
            (.ofInt (BitVec.ofNat w (i + 1)).toInt) blob.data with
        | none =>
            rw [hassign] at h
            cases h
        | some r =>
            rw [hassign] at h
            exact ih (i + 1) { script with process := r.1, world := r.2 } hslot h
      · cases h
        rfl

/-! ## The registry in a run -/

/-- Fetching the registry and making a blob leave the dictionary. -/
theorem getReg_fetched (self : Process) (blocks : Nat) :
    (getReg ⟨(getReg self).2.gRegistry, blocks⟩).1 = (getReg self).1 := by
  cases hreg : self.gRegistry <;> simp [getReg, hreg]

section Calls

variable {self self' : Process} {values : List Value} {args : List (Option Bytes)}

theorem knRegSet_stepped {memory : Memory}
    (hcall : knRegSet memory self args = .ok (self', values)) :
    (getReg self).1.Stepped (getReg self').1 := by
  rcases args with _ | ⟨_ | key, _ | ⟨_ | value, rest⟩⟩
  case cons.some.cons.some =>
    cases hkey : memory.key with
    | false =>
        rw [knRegSet_no_key hkey] at hcall
        cases hcall
    | true =>
        rw [knRegSet_key hkey] at hcall
        rcases Fallible.bind_eq_ok.mp hcall with ⟨o, hset, hcall⟩
        cases hcall
        exact dictSet_stepped hset
  all_goals
    cases hcall
    exact .same

/-- A lookup leaves the dictionary. -/
theorem knRegGet_same {granted : Bool} (hcall : knRegGet granted self args = .ok (self', values)) :
    (getReg self').1 = (getReg self).1 := by
  rcases args with _ | ⟨_ | key, rest⟩
  case cons.some =>
    cases granted with
    | false => cases hcall
    | true =>
        simp only [knRegGet, knBufToBlob_granted, deref, Fallible.ok_bind] at hcall
        rcases Fallible.bind_eq_ok.mp hcall with ⟨o, _, hcall⟩
        -- found or not, the process is the same
        cases hres : o.result with
        | none =>
            rw [hres] at hcall
            cases hcall
            exact getReg_fetched self _
        | some value =>
            rw [hres] at hcall
            cases hcall
            exact getReg_fetched self _
  all_goals
    cases hcall
    rfl

theorem knRegHas_same {granted : Bool} (hcall : knRegHas granted self args = .ok (self', values)) :
    (getReg self').1 = (getReg self).1 := by
  rcases args with _ | ⟨_ | key, rest⟩
  case cons.some =>
    cases granted with
    | false => cases hcall
    | true =>
        simp only [knRegHas, knBufToBlob_granted, deref, Fallible.ok_bind] at hcall
        rcases Fallible.bind_eq_ok.mp hcall with ⟨o, _, hcall⟩
        cases hcall
        exact getReg_fetched self _
  all_goals
    cases hcall
    rfl

theorem knRegDelete_stepped {granted : Bool} (h : (getReg self).1.Tidy)
    (hcall : knRegDelete granted self args = .ok (self', values)) :
    (getReg self).1.Stepped (getReg self').1 := by
  rcases args with _ | ⟨_ | key, rest⟩
  case cons.some =>
    cases granted with
    | false => cases hcall
    | true =>
        simp only [knRegDelete, knBufToBlob_granted, deref, Fallible.ok_bind] at hcall
        rcases Fallible.bind_eq_ok.mp hcall with ⟨o, hdelete, hcall⟩
        cases hcall
        exact dictDelete_stepped h hdelete
  all_goals
    cases hcall
    exact .same

/-- What a call makes of the dictionary. -/
theorem regCall_stepped {c : RegCall} (h : (getReg self).1.Tidy)
    (hcall : regCall w self c = .ok (self', values)) :
    (getReg self).1.Stepped (getReg self').1 := by
  cases c with
  | set memory args => exact knRegSet_stepped hcall
  | get granted args =>
      rw [knRegGet_same hcall]
      exact .same
  | has granted args =>
      rw [knRegHas_same hcall]
      exact .same
  | delete granted args => exact knRegDelete_stepped h hcall
  | count =>
      obtain rfl : (getReg self).2 = self' := (Prod.mk.inj (Except.ok.inj hcall)).1
      rw [getReg_getReg]
      exact .same

end Calls

/-- The registry is tidy in every state of a run. -/
theorem reg_run_tidy {calls : List RegCall} {self : Process}
    {outputs : List (List Value × List (Option Bytes × Option Bytes))}
    (hrun : (regMachine w).run calls = .ok (self, outputs)) : (getReg self).1.Tidy := by
  refine Machine.runFrom_keeps (M := regMachine w) (I := fun s => (getReg s).1.Tidy) ?_ calls
    .fresh self outputs createDict_safe.tidy hrun
  intro s c s' o h hstep
  rcases Fallible.bind_eq_ok.mp hstep with ⟨⟨self', values⟩, hcall, hstep⟩
  cases hstep
  exact (regCall_stepped h hcall).tidy h

/-- No call reorders the keys of the registry: a new key comes last. -/
theorem regCall_keys {self self' : Process} {c : RegCall} {values : List Value}
    (h : (getReg self).1.Tidy) (hcall : regCall w self c = .ok (self', values)) :
    Dict.KeysKept self.keys self'.keys :=
  (regCall_stepped h hcall).keys h

/-- On the ordered map the keys are those of the map. -/
theorem Holds.keys {self : Process} {a : ListDict} (h : Holds self a) : self.keys = a.map.keys :=
  h.represents.keys_eq

/-! ## The result -/

/-- Without arguments the table gets the keys at the numbers that are pushed. -/
theorem listsKeys_nil {self : Process} (h : (getReg self).1.Tidy) (world : W) :
    ListsKeys assign w self world [] ↔
      IsArray (OrderedMap.empty.putAll (numbered w 0 self.keys)) self.keys := by
  let script : Script W V := luaCreateTable ⟨self, world, OrderedMap.empty, .enter []⟩
  have hloop := fun fuel => knRegKeysLoop_fresh assign (w := w) self.keys fuel 0
    script h rfl rfl
  constructor
  · rintro ⟨fuel, script', n, hrun, _, harray, _⟩
    rcases Fallible.bind_eq_ok.mp hrun with ⟨r, hr, hrun⟩
    rw [List.map_nil, hloop fuel] at hr
    split_ifs at hr
    cases hr
    cases hrun
    exact harray
  · intro harray
    let table := OrderedMap.empty.putAll (numbered w 0 self.keys)
    refine ⟨self.keys.length + 1, { script with process := (getReg self).2, fresh := table }, 1, ?_,
      Frame.returns_push rfl _, harray, rfl⟩
    rw [knRegKeys, List.map_nil, hloop, if_pos (Nat.lt_succ_self _)]
    rfl

/-- With an argument the table stays empty. -/
theorem listsKeys_cons {self : Process} (h : (getReg self).1.Tidy) (world : W) (v : V)
    (rest : List V) : ListsKeys assign w self world (v :: rest) ↔ self.keys = [] := by
  constructor
  · rintro ⟨fuel, script, n, hrun, _, harray, _⟩
    rcases Fallible.bind_eq_ok.mp hrun with ⟨r, hr, hrun⟩
    cases r with
    | none => cases hrun
    | some script' =>
        cases hrun
        have hempty : script.fresh = OrderedMap.empty := knRegKeysLoop_caller assign fuel 0 _ rfl hr
        have hsize := harray.size
        rw [hempty] at hsize
        exact List.eq_nil_of_length_eq_zero hsize.symm
  · intro hkeys
    let script : Script W V := luaCreateTable
      ⟨self, world, OrderedMap.empty, .enter ((v :: rest).map Item.caller)⟩
    have hlength : script.process.keys.length ≤ 0 := Nat.le_of_eq (congrArg List.length hkeys)
    have hdone := knRegKeysLoop_done assign (w := w) h hlength 0
    have harray : IsArray OrderedMap.empty self.keys := by
      rw [hkeys]
      refine ⟨rfl, fun i hpos hi => ?_⟩
      exact absurd (le_trans hpos hi) (by decide)
    refine ⟨1, { script with process := (getReg self).2 }, 1, ?_, Frame.returns_push rfl _,
      harray, rfl⟩
    rw [knRegKeys, hdone]
    rfl

/-- In every reachable state, for every list of arguments and whatever an assignment to them does:
the keys are listed exactly when there is none, or when no argument is passed and all their numbers
are a `lua_Integer` and a `double`. -/
theorem regKeys_iff (assign : Process → W → V → Number → Bytes → Option (Process × W)) (w : Nat)
    {calls : List RegCall} {self : Process}
    {outputs : List (List Value × List (Option Bytes × Option Bytes))}
    (hrun : (regMachine w).run calls = .ok (self, outputs)) (world : W) (args : List V) :
    ListsKeys assign w self world args ↔
      self.keys = [] ∨ args = [] ∧ CountsExactly w self.keys.length := by
  have htidy := reg_run_tidy hrun
  cases args with
  | nil =>
      rw [listsKeys_nil assign htidy]
      constructor
      · intro harray
        exact Or.inr ⟨rfl, countsExactly_of_isArray harray⟩
      · rintro (hkeys | ⟨_, hcounts⟩)
        · refine isArray_numbered ?_
          rw [hkeys]
          exact ⟨Nat.two_pow_pos _, Nat.zero_le _⟩
        · exact isArray_numbered hcounts
  | cons v rest =>
      rw [listsKeys_cons assign htidy]
      constructor
      · exact Or.inl
      · rintro (hkeys | ⟨hargs, _⟩)
        · exact hkeys
        · cases hargs

/-! ## Values without metatables -/

/-- A value of a script in which no value has a metatable: a table, by its number, or another. -/
inductive Plain where
  | table (t : Nat)
  | other

/-- Only tables can be assigned to. -/
def plainAssign (self : Process) (tables : List (OrderedMap Number Bytes)) :
    Plain → Number → Bytes → Option (Process × List (OrderedMap Number Bytes))
  | .table t, key, value =>
      tables[t]?.map (fun table => (self, tables.set t (table.put key value)))
  | .other, _, _ => none

/-- Two keys, and no argument. -/
theorem regKeys_two :
    let calls : List RegCall :=
      [.set .ample [some [1], some [10]], .set .ample [some [2], some [20]]]
    ∃ s outputs, (regMachine 32).run calls = .ok (s, outputs) ∧ s.keys = [[1], [2]] ∧
      ListsKeys plainAssign 32 s [] [] := by
  intro calls
  have hrun : ((regMachine 32).run calls).toOption.any (fun r =>
      decide (r.1.keys = [[1], [2]])) = true := by
    decide +kernel
  rcases Fallible.exists_ok_of_any hrun with ⟨⟨s, outputs⟩, hok, hkeys⟩
  have hkeys : s.keys = [[1], [2]] := of_decide_eq_true hkeys
  refine ⟨s, outputs, hok, hkeys, (regKeys_iff plainAssign 32 hok [] []).mpr (Or.inr ⟨rfl, ?_⟩)⟩
  rw [hkeys]
  exact ⟨by decide, by decide⟩

/-- A script that passes a table gets the keys in its own table, and an empty one back. -/
theorem regKeys_not_listed :
    let calls : List RegCall := [.set .ample [some [1], some [10]]]
    let tables : List (OrderedMap Number Bytes) := [OrderedMap.empty]
    ∃ s outputs, (regMachine 32).run calls = .ok (s, outputs) ∧ s.keys = [[1]] ∧
      ((knRegKeys plainAssign 32 2 s tables [.table 0]).toOption.join.map (fun r =>
          (r.1.fresh.entries, r.1.world.map OrderedMap.entries))) =
        some ([], [[(.finite 1, [1])]]) ∧
      ¬ ListsKeys plainAssign 32 s tables [.table 0] := by
  intro calls tables
  have hrun : ((regMachine 32).run calls).toOption.any (fun r =>
      decide (r.1.keys = [[1]] ∧
        ((knRegKeys plainAssign 32 2 r.1 tables [.table 0]).toOption.join.map (fun r =>
          (r.1.fresh.entries, r.1.world.map OrderedMap.entries))) =
          some ([], [[(.finite 1, [1])]]))) = true := by
    decide +kernel
  rcases Fallible.exists_ok_of_any hrun with ⟨⟨s, outputs⟩, hok, hout⟩
  rcases of_decide_eq_true hout with ⟨hkeys, hresult⟩
  refine ⟨s, outputs, hok, hkeys, hresult, ?_⟩
  rw [listsKeys_cons plainAssign (reg_run_tidy hok), hkeys]
  exact List.cons_ne_nil _ _

end Registry
end KnShim
