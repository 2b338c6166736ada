import KnShim.AndrLeaf.Lookup
import KnShim.LeafHook.LazyHooker

/-!
# Startup.Inits — what the library does before the game starts

`android_main` loads the game's library, calls one function of each module, and then the game's own
`android_main`.  The modules look up symbols, patch the table of Lua libraries that the game opens
for each of its scripts, hook functions of the game, and put paths together.

The symbols are looked up in memory that the functions before have written to.  `Started` is what is
known when some hooks are set: they are the run of `KNHookFunction` on these hooks, and nothing has
changed but the functions and the memory of the hooker.
-/

namespace KnShim
namespace Startup

open Lib AndrLeaf LeafHook

/-! ## The builds -/

/-- The modules that the library is built with: with none of the options, with `BUILD_CIPHER`, or
with `HYPERSPACE`. -/
inductive Build where
  | plain
  | cipher
  | hyperspace
  deriving DecidableEq

def platformOf : Target → Platform
  | .armv7 => .arm
  | .aarch64 => .aarch64

/-- The width of an address. -/
abbrev bitsOf (target : Target) : Nat := (platformOf target).cls.bits

/-- `LH_AARCH32` or `LH_AARCH64`. -/
def hookArch : (target : Target) → Arch (bitsOf target)
  | .armv7 => aarch32
  | .aarch64 => aarch64

/-- The functions of the game that are hooked. -/
inductive GameFunction where
  | scriptLoad
  | resManLoad
  | playerZero
  deriving DecidableEq

def GameFunction.symbol : GameFunction → CString
  | .scriptLoad => CString.literal "_ZN6Script4loadERK8QiString"
  | .resManLoad => CString.literal "_ZN6ResMan4loadERK8QiStringR14QiOutputStream"
  | .playerZero => CString.literal "_ZN6Player4zeroEv"

/-- The functions that a build hooks, in the order in which it does. -/
def Build.hooked : Build → List GameFunction
  | .plain => []
  | .cipher => [.resManLoad]
  | .hyperspace => [.scriptLoad, .resManLoad, .playerZero]

/-- Where things of the library are: its hooks, `load_lua_libs` and the string `""`. -/
structure ShimCode (w : Nat) where
  hook : GameFunction → BitVec w
  loadLuaLibs : BitVec w
  empty : BitVec w
  loadLuaLibs_ne : loadLuaLibs ≠ 0

/-! ## The state -/

/-- The global variables, and the memory, which is that of `hooks`.  A pointer that was not set is
`none`. -/
structure Process (w : Nat) where
  hooks : Shim w
  originals : GameFunction → Option (BitVec w)
  writeBuffer : Option (BitVec w)
  loadTemplates : Option (BitVec w)
  gDatabasePath : Option CString
  gAndroidInternalDataPath : Option CString
  gAndroidExternalDataPath : Option CString

/-- The library when the game's library has been loaded. -/
def Process.fresh {w : Nat} (m : Memory w) : Process w where
  hooks := ⟨none, m, []⟩
  originals := fun _ => none
  writeBuffer := none
  loadTemplates := none
  gDatabasePath := none
  gAndroidInternalDataPath := none
  gAndroidExternalDataPath := none

/-- What the device gives: memory, the file of the game's library, the paths of the app, and what
the hooker asks for. -/
structure Device (target : Target) where
  mallocLeaf : Bool
  openAsset : CString → Option (Input (platformOf target).cls)
  system : System (platformOf target).cls
  linker : Linker (bitsOf target)
  internalDataPath : Option CString
  externalDataPath : Option CString
  strdupInternal : Bool
  strdupExternal : Bool
  mallocPath : Bool
  heap : (n : Nat) → Fin n → UInt8
  pageSize : Nat
  resources : GameFunction → Resources (bitsOf target) pageSize

section Functions

variable {target : Target} (build : Build) (code : ShimCode (bitsOf target))
  (device : Device target) (leaf : LeafObject (bitsOf target))

/-- `KNGetSymbolAddr`, on the memory as it is. -/
def knGetSymbolAddr {cls : ElfClass} (leaf : LeafObject cls.bits) (m : Memory cls.bits)
    (name : CString) : BitVec cls.bits :=
  match leafSymbolInfo m leaf.strtab leaf.symtab leaf.symCount name with
  | some i => stValue m leaf.symtab i
  | none => 0

/-- What a call stored to `*orig`: the stub that it made. -/
def stored {w : Nat} (before after : Shim w) : Option (BitVec w) :=
  after.stubs[before.stubs.length]?.map Stub.base

/-- A call of `KNHookFunction` for a function of the game, by its symbol; a hooker reads and writes
the function. -/
def hookGameFunction (f : GameFunction) (s : Process (bitsOf target)) :
    Fallible (Process (bitsOf target)) :=
  let function := knGetSymbolAddr leaf s.hooks.mem f.symbol
  let r := device.resources f
  if function = 0 ∧ (s.hooks.gHooker.isSome = true ∨ r.malloc = true) then
    .error .nullDeref
  else do
    let (_, hooks) ← knHookFunction (hookArch target) s.hooks r ⟨function, code.hook f, true⟩
    return { s with
      hooks := hooks
      originals := Function.update s.originals f
        ((stored s.hooks hooks).or (s.originals f)) }

/-- `strdup`. -/
def strdup (granted : Bool) : Option CString → Fallible (Option CString)
  | none => .error .nullDeref
  | some s => .ok (if granted then some s else none)

/-! ## The table of Lua libraries -/

/-- A word of the table. -/
def regWord {cls : ElfClass} (m : Memory cls.bits) (table : BitVec cls.bits) (k : Nat) :
    BitVec cls.bits :=
  loadWord m (table + BitVec.ofNat _ (k * cls.wordBytes))

def setRegWord {cls : ElfClass} (table : BitVec cls.bits) (m : Memory cls.bits) (k : Nat)
    (v : BitVec cls.bits) : Memory cls.bits :=
  storeWord m (table + BitVec.ofNat _ (k * cls.wordBytes)) v

/-- The symbol from which the table is found. -/
def vtableName : CString := CString.literal "_ZTV17QiFileInputStream"

/-- `lua_reg_table[1]` and `lua_reg_table[2]` are set. -/
def patchRegs {cls : ElfClass} (code : ShimCode cls.bits) (table : BitVec cls.bits)
    (m : Memory cls.bits) : Memory cls.bits :=
  let m := setRegWord table m 2 code.empty
  let m := setRegWord table m 3 code.loadLuaLibs
  let m := setRegWord table m 4 0
  setRegWord table m 5 0

/-- `lua_reg_table`, six pointers behind the symbol. -/
def luaRegTable {cls : ElfClass} (vtable : BitVec cls.bits) : BitVec cls.bits :=
  vtable + BitVec.ofNat _ (6 * cls.wordBytes)

/-! ## The functions of the modules -/

/-- `KNInitLua`.  Without the symbol the table is behind `NULL`, which the test does not notice. -/
def knInitLua (s : Process (bitsOf target)) : Fallible (Process (bitsOf target)) :=
  if build = .hyperspace then do
    let s ← hookGameFunction code device leaf .scriptLoad s
    let internal ← strdup device.strdupInternal device.internalDataPath
    return { s with gAndroidInternalDataPath := internal }
  else
    let vtable := knGetSymbolAddr leaf s.hooks.mem vtableName
    if luaRegTable vtable = 0 then
      .ok s
    else if vtable = 0 then
      .error .nullDeref
    else do
      let mem := patchRegs code (luaRegTable vtable) s.hooks.mem
      let internal ← strdup device.strdupInternal device.internalDataPath
      let external ← strdup device.strdupExternal device.externalDataPath
      return { s with
        hooks := { s.hooks with mem := mem }
        gAndroidInternalDataPath := internal
        gAndroidExternalDataPath := external }

def basePath : CString := CString.literal "database.kn"

/-- `KNDatabaseInit`. -/
def knDatabaseInit (s : Process (bitsOf target)) : Fallible (Process (bitsOf target)) :=
  match device.internalDataPath with
  | none => .error .nullDeref
  | some internalPath =>
      if device.mallocPath then do
        let block := List.ofFn (device.heap (internalPath.length + 1 + basePath.length + 1))
        let block ← CString.store block 0 internalPath
        let dest ← CString.read block
        let block ← CString.store block dest.length (CString.literal "/")
        let dest ← CString.read block
        let block ← CString.store block dest.length basePath
        let path ← CString.read block
        return { s with gDatabasePath := some path }
      else
        .error .nullDeref

/-- `QiOutputStream::writeBuffer`. -/
def writeBufferName : Target → CString
  | .armv7 => CString.literal "_ZN14QiOutputStream11writeBufferEPKvj"
  | .aarch64 => CString.literal "_ZN14QiOutputStream11writeBufferEPKvm"

/-- `Game::loadTemplates`. -/
def loadTemplatesName : CString := CString.literal "_ZN4Game13loadTemplatesEv"

/-- `KNCipherInit`. -/
def knCipherInit (s : Process (bitsOf target)) : Fallible (Process (bitsOf target)) := do
  let s ← hookGameFunction code device leaf .resManLoad s
  return { s with
    writeBuffer := some (knGetSymbolAddr leaf s.hooks.mem (writeBufferName target)) }

/-- `KNOverlayInit`. -/
def knOverlayInit (s : Process (bitsOf target)) : Fallible (Process (bitsOf target)) := do
  let s := { s with
    writeBuffer := some (knGetSymbolAddr leaf s.hooks.mem (writeBufferName target))
    loadTemplates := some (knGetSymbolAddr leaf s.hooks.mem loadTemplatesName) }
  let s ← hookGameFunction code device leaf .resManLoad s
  hookGameFunction code device leaf .playerZero s

/-- `gModuleInitFuncs`. -/
def gModuleInitFuncs : List (Process (bitsOf target) → Fallible (Process (bitsOf target))) :=
  [knInitLua build code device leaf, knDatabaseInit device] ++
    match build with
    | .plain => []
    | .cipher => [knCipherInit code device leaf]
    | .hyperspace => [knOverlayInit code device leaf]

/-! ## `android_main` -/

/-- How `android_main` ends: with a message, or with the call of the game. -/
inductive Outcome (w : Nat) where
  | logged (message : String)
  | called (func : BitVec w) (leaf : LeafObject w) (s : Process w)

/-- The file that `load_libsmashhit` opens. -/
def assetPath : Target → CString
  | .armv7 => CString.literal "native/armeabi-v7a/libsmashhit.so.mp3"
  | .aarch64 => CString.literal "native/arm64-v8a/libsmashhit.so.mp3"

def mainName : CString := CString.literal "android_main"

/-- `android_main`, behind the loading of the library. -/
def installAndCall (linked : Linked (platformOf target).cls) :
    Fallible (Outcome (bitsOf target)) := do
  let s ← (gModuleInitFuncs build code device linked.leaf).foldlM (fun s init => init s)
    (Process.fresh linked.memory)
  let func := knGetSymbolAddr linked.leaf s.hooks.mem mainName
  if func = 0 then
    return .logged "Could not find android_main()"
  else
    return .called func linked.leaf s

/-- `android_main`. -/
def androidMain : Fallible (Outcome (bitsOf target)) :=
  if device.mallocLeaf then
    match device.openAsset (assetPath target) with
    | none => .ok (.logged "Failed to load libsmashhit.so from shim native dir")
    | some input =>
        match leafLoadFromBuffer (platformOf target) device.system device.linker input
            (leafInit _) with
        | .error (.fault fault) => .error fault
        | .error (.returned error _) => .ok (.logged ("Leaf loading elf failed: " ++ error))
        | .ok linked => installAndCall build code device linked
  else
    .ok (.logged "Leaf init failed")

end Functions

/-! ## Hooks -/

section Hooks

variable {target : Target} {device : Device target} {code : ShimCode (bitsOf target)}

/-- The memory that a hooker may have. -/
def HookArea (device : Device target) (p : BitVec (bitsOf target)) : Prop :=
  ∃ f block, (device.resources f).mmap = some block ∧
    Memory.InRange block.addr (10 * device.pageSize) p

/-- The part of a function that a hook replaces. -/
def HookedAt (target : Target) (function p : BitVec (bitsOf target)) : Prop :=
  Memory.InRange function (4 * (hookArch target).blockSize) p

/-- What `gHooker` is after `n` hooks. -/
def HookerIn (device : Device target) (n : Nat) : Option (Hooker (bitsOf target)) → Prop
  | none => True
  | some .mapFailed => False
  | some (.mapped self) =>
      (∃ f block, (device.resources f).mmap = some block ∧ self.rwxBlock = block.addr) ∧
        self.rwxBlockSize = 10 * device.pageSize ∧
          self.rwxBlockUsed ≤ 2 * streamMaxSize * n

/-- Memory that is mapped is there for the hooker, and pages are not small. -/
structure Device.Roomy (device : Device target) : Prop where
  mapped : ∀ f, (device.resources f).malloc = true → (device.resources f).mmap ≠ none
  pages : 4096 ≤ device.pageSize

/-- What a hook may change: the hooker, the function and the stubs, to which it appends one. -/
structure HookStep (device : Device target) (n : Nat) (function : BitVec (bitsOf target))
    (s s' : Shim (bitsOf target)) : Prop where
  hooker : HookerIn device (n + 1) s'.gHooker
  stubs : s'.stubs = s.stubs ∨ ∃ stub, s'.stubs = s.stubs ++ [stub]
  frame : ∀ p, ¬ HookedAt target function p → ¬ HookArea device p → s'.mem p = s.mem p

theorem hookWithHooker_step {items : Memory (bitsOf target) → BitVec (bitsOf target) → List Item}
    {jump : BitVec (bitsOf target) → List Item} (hlayout : (hookArch target).Layout items jump)
    {n : Nat} (hroom : 2 * streamMaxSize * (n + 1) ≤ 10 * device.pageSize)
    {s : Shim (bitsOf target)} {self : LHHooker (bitsOf target)}
    (hs : s.gHooker = some (.mapped self)) (h : HookerIn device n s.gHooker)
    {req : Install (bitsOf target)} (horig : req.orig = true) :
    ∃ s', hookWithHooker (hookArch target) s req = .ok (true, s') ∧
      HookStep device n req.function s s' := by
  rw [hs] at h
  rw [Nat.mul_succ] at hroom
  rcases h with ⟨⟨f, block, hmmap, haddr⟩, hsize, hused⟩
  have hblock : self.rwxBlock ≠ 0 := haddr ▸ block.nonnull
  have hend : self.rwxBlock.toNat + self.rwxBlockSize < 2 ^ bitsOf target := by
    rw [haddr, hsize]
    exact block.fits
  rcases hlayout.install_frame (s := ⟨.mapped self, s.mem, s.stubs⟩) rfl horig hblock hend
    (by omega) with ⟨now, stub, mem, hrun, hblock', hsize', hused', hframe⟩
  refine ⟨⟨some (.mapped now), mem, s.stubs ++ [stub]⟩, ?_, ?_, Or.inr ⟨stub, rfl⟩, ?_⟩
  · rw [hookWithHooker, hs]
    change (install (hookArch target) ⟨.mapped self, s.mem, s.stubs⟩ req >>= _) = _
    rw [hrun]
    rfl
  · refine ⟨⟨f, block, hmmap, hblock'.trans haddr⟩, hsize'.trans hsize, ?_⟩
    rw [Nat.mul_succ]
    omega
  · intro p hfunction harea
    refine hframe p hfunction fun hin => harea ⟨f, block, hmmap, ?_⟩
    rwa [← haddr, ← hsize]

/-- A hooker that is created has its pages, and has used none of them. -/
theorem Device.Roomy.hookerCreate_mapped (hroomy : device.Roomy) (n : Nat) {f : GameFunction}
    (hmalloc : (device.resources f).malloc = true) :
    ∃ self, hookerCreate (device.resources f).malloc device.pageSize (device.resources f).mmap =
        some (.mapped self) ∧
      HookerIn device n (some (.mapped self)) := by
  rcases Option.ne_none_iff_exists'.mp (hroomy.mapped f hmalloc) with ⟨block, hmmap⟩
  refine ⟨⟨block.addr, 10 * device.pageSize, 0, block.aligned, rfl⟩, ?_,
    ⟨f, block, hmmap, rfl⟩, rfl, Nat.zero_le _⟩
  unfold hookerCreate
  rw [if_pos hmalloc, hmmap]
  exact if_neg block.nonnull

/-- A hook is set, or it is not since there is no memory for a hooker. -/
theorem knHookFunction_step {items : Memory (bitsOf target) → BitVec (bitsOf target) → List Item}
    {jump : BitVec (bitsOf target) → List Item} (hlayout : (hookArch target).Layout items jump)
    (hroomy : device.Roomy) {n : Nat} (hn : n < 3) {s : Shim (bitsOf target)}
    (h : HookerIn device n s.gHooker) (f : GameFunction) {req : Install (bitsOf target)}
    (horig : req.orig = true) :
    ∃ success s', knHookFunction (hookArch target) s (device.resources f) req = .ok (success, s') ∧
      HookStep device n req.function s s' := by
  have hpages := hroomy.pages
  have hstreams : streamMaxSize = 256 := rfl
  have hroom : 2 * streamMaxSize * (n + 1) ≤ 10 * device.pageSize := by
    rw [hstreams]
    omega
  cases hhooker : s.gHooker with
  | some hooker =>
      cases hooker with
      | mapFailed =>
          rw [hhooker] at h
          exact h.elim
      | mapped self =>
          rcases hookWithHooker_step hlayout hroom hhooker h horig with ⟨s', hrun, hstep⟩
          refine ⟨true, s', ?_, hstep⟩
          rw [knHookFunction, hhooker]
          exact hrun
  | none =>
      cases hmalloc : (device.resources f).malloc with
      | false =>
          refine ⟨false, { s with gHooker := none }, ?_, trivial, Or.inl rfl, fun _ _ _ => rfl⟩
          simp only [knHookFunction, hhooker, knHookInit, hookerCreate, hmalloc,
            Bool.false_eq_true, if_false, Option.isSome_none]
      | true =>
          -- the hooker is created, and then it is there
          rcases hroomy.hookerCreate_mapped n hmalloc with ⟨self, hcreate, hself⟩
          rcases hookWithHooker_step (s := { s with gHooker := some (.mapped self) }) hlayout hroom
            rfl hself horig with ⟨s', hrun, hstep⟩
          refine ⟨true, s', ?_, hstep.hooker, hstep.stubs, hstep.frame⟩
          simp only [knHookFunction, hhooker, knHookInit, hcreate, Option.isSome_some, if_true]
          exact hrun

/-! ## A function of the game -/

variable {leaf : LeafObject (bitsOf target)} {address : GameFunction → BitVec (bitsOf target)}
  {m₁ : Memory (bitsOf target)} {done : List GameFunction} {s : Process (bitsOf target)}

/-- The call for a function, and what `malloc` and `mmap` do in it. -/
def hookCall (code : ShimCode (bitsOf target)) (device : Device target)
    (address : GameFunction → BitVec (bitsOf target)) (f : GameFunction) :
    Resources (bitsOf target) device.pageSize × Install (bitsOf target) :=
  (device.resources f, ⟨address f, code.hook f, true⟩)

/-- The hooks for the functions in `done` are set in the memory `m₁`, or were tried to. -/
structure Started (code : ShimCode (bitsOf target)) (device : Device target)
    (address : GameFunction → BitVec (bitsOf target)) (m₁ : Memory (bitsOf target))
    (done : List GameFunction) (s : Process (bitsOf target)) : Prop where
  run : ∃ answers, (hookMachine (hookArch target) device.pageSize m₁).run
    (done.map (hookCall code device address)) = .ok (s.hooks, answers)
  hooker : HookerIn device done.length s.hooks.gHooker
  originals : done.filterMap s.originals = s.hooks.stubs.map Stub.base
  unset : ∀ f, f ∉ done → s.originals f = none
  frame : ∀ p, (∀ f ∈ done, ¬ HookedAt target (address f) p) → ¬ HookArea device p →
    s.hooks.mem p = m₁ p

/-- Before the first hook. -/
theorem Started.none (hhooks : s.hooks = ⟨none, m₁, []⟩)
    (horiginals : s.originals = fun _ => none) : Started code device address m₁ [] s where
  run := ⟨[], by rw [hhooks]; rfl⟩
  hooker := by
    rw [hhooks]
    trivial
  originals := by
    rw [hhooks]
    rfl
  unset := fun f _ => congrFun horiginals f
  frame := fun _ _ _ => by rw [hhooks]

/-- The other variables do not matter. -/
theorem Started.congr {s' : Process (bitsOf target)} (h : Started code device address m₁ done s)
    (hhooks : s'.hooks = s.hooks) (horiginals : s'.originals = s.originals) :
    Started code device address m₁ done s' where
  run := by
    rw [hhooks]
    exact h.run
  hooker := by
    rw [hhooks]
    exact h.hooker
  originals := by
    rw [hhooks, horiginals]
    exact h.originals
  unset := by
    rw [horiginals]
    exact h.unset
  frame := by
    rw [hhooks]
    exact h.frame

/-- The original of a function that is hooked now is the new stub. -/
theorem filterMap_update {fs : List GameFunction} {f : GameFunction} (hf : f ∉ fs)
    (originals : GameFunction → Option (BitVec (bitsOf target)))
    (v : Option (BitVec (bitsOf target))) :
    (fs ++ [f]).filterMap (Function.update originals f v) =
      fs.filterMap originals ++ v.toList := by
  have hothers : fs.filterMap (Function.update originals f v) = fs.filterMap originals := by
    apply List.filterMap_congr
    intro g hg
    exact Function.update_of_ne (fun heq : g = f => hf (heq ▸ hg)) _ _
  rw [List.filterMap_append, hothers, List.filterMap_cons, Function.update_self]
  cases v <;> rfl

/-- The hook for one function more. -/
theorem Started.hook {items : Memory (bitsOf target) → BitVec (bitsOf target) → List Item}
    {jump : BitVec (bitsOf target) → List Item} (hlayout : (hookArch target).Layout items jump)
    (hroomy : device.Roomy) (h : Started code device address m₁ done s) (hn : done.length < 3)
    {f : GameFunction} (hf : f ∉ done) (haddress : address f ≠ 0)
    (hfound : knGetSymbolAddr leaf s.hooks.mem f.symbol = address f) :
    ∃ s', hookGameFunction code device leaf f s = .ok s' ∧
      Started code device address m₁ (done ++ [f]) s' ∧
      s' = { s with hooks := s'.hooks, originals := s'.originals } := by
  have horig : (⟨address f, code.hook f, true⟩ : Install (bitsOf target)).orig = true := rfl
  rcases knHookFunction_step hlayout hroomy hn h.hooker f horig with
    ⟨success, hooks, hcall, hstep⟩
  rcases h.run with ⟨answers, hrun⟩
  refine ⟨{ s with
      hooks := hooks
      originals := Function.update s.originals f ((stored s.hooks hooks).or (s.originals f)) },
    ?_, ⟨⟨answers ++ [success], ?_⟩, ?_, ?_, ?_, ?_⟩, rfl⟩
  · rw [hookGameFunction]
    simp only [hfound, haddress, false_and, if_false, hcall, Fallible.ok_bind, Fallible.pure_eq]
  · rw [List.map_append, List.map_singleton]
    refine Machine.runFrom_concat hrun ?_
    change (knHookFunction _ _ (device.resources f) ⟨address f, code.hook f, true⟩ >>= _) = _
    rw [hcall]
    rfl
  · rw [List.length_append, List.length_singleton]
    exact hstep.hooker
  · rw [filterMap_update hf, h.originals]
    rcases hstep.stubs with hsame | ⟨stub, hnew⟩
    · simp [stored, hsame, h.unset f hf]
    · simp [stored, hnew]
  · intro g hg
    rw [List.mem_append, List.mem_singleton, not_or] at hg
    exact (Function.update_of_ne hg.2 _ _).trans (h.unset g hg.1)
  · intro p hfunctions harea
    rw [List.forall_mem_append] at hfunctions
    rw [hstep.frame p (hfunctions.2 f (List.mem_singleton_self f)) harea]
    exact h.frame p hfunctions.1 harea

end Hooks

end Startup
end KnShim
