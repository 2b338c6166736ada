import KnShim.Startup.Inits

/-!
# Startup.Scripts — what a script is given

For each of its scripts the game opens the Lua libraries of a table, of which `KNInitLua` has set
the second entry to `load_lua_libs` and the third to the end.  With `HYPERSPACE` the function that
loads a script is hooked instead.  Either way a script is given libraries of Lua, all but one of
them ours, and the functions of this library under their own names.
-/

namespace KnShim
namespace Startup

open Lib AndrLeaf LeafHook

/-! ## The table of the game -/

section Table

variable {cls : ElfClass} {m m' : Memory cls.bits} {table v : BitVec cls.bits} {j k : Nat}

theorem regWord_bounds (hk : k < 6) : k * cls.wordBytes + cls.wordBytes ≤ 2 ^ cls.bits := by
  have hle : (k + 1) * cls.wordBytes ≤ 6 * cls.wordBytes := Nat.mul_le_mul_right _ hk
  calc
    k * cls.wordBytes + cls.wordBytes = (k + 1) * cls.wordBytes := (Nat.succ_mul _ _).symm
    _ ≤ 6 * cls.wordBytes := hle
    _ ≤ 2 ^ cls.bits := by cases cls <;> decide

/-- The addresses of a word are in the table. -/
theorem inRange_regWord (hk : k < 6) {p : BitVec cls.bits}
    (h : Memory.InRange (table + BitVec.ofNat _ (k * cls.wordBytes)) cls.wordBytes p) :
    Memory.InRange table (6 * cls.wordBytes) p := by
  refine (h.of_offset ?_ ?_).2
  · rw [← Nat.succ_mul]
    exact Nat.mul_le_mul_right _ hk
  · cases cls <;> decide

theorem regWord_congr (hk : k < 6)
    (h : ∀ p, Memory.InRange table (6 * cls.wordBytes) p → m p = m' p) :
    regWord m table k = regWord m' table k :=
  loadWord_congr fun p hp => h p (inRange_regWord hk hp)

/-- A word that was set. -/
theorem regWord_setRegWord (hj : j < 6) (hk : k < 6) :
    regWord (setRegWord table m j v) table k = if k = j then v else regWord m table k := by
  by_cases hkj : k = j
  · rw [if_pos hkj, hkj]
    exact loadWord_storeWord m _ v
  · rw [if_neg hkj]
    have hj' : j * cls.wordBytes + cls.wordBytes ≤ 2 ^ cls.bits := regWord_bounds hj
    have hk' : k * cls.wordBytes + cls.wordBytes ≤ 2 ^ cls.bits := regWord_bounds hk
    have hapart : Memory.Apart (table + BitVec.ofNat _ (k * cls.wordBytes)) cls.wordBytes
        (table + BitVec.ofNat _ (j * cls.wordBytes)) cls.wordBytes := by
      rcases Nat.lt_or_gt_of_ne hkj with hlt | hgt
      · refine Memory.apart_offsets table ?_ hj'
        rw [← Nat.succ_mul]
        exact Nat.mul_le_mul_right _ hlt
      · refine (Memory.apart_offsets table ?_ hk').symm
        rw [← Nat.succ_mul]
        exact Nat.mul_le_mul_right _ hgt
    exact loadWord_congr fun p hp => storeWord_of_not_inRange m v (hapart p hp)

/-- A patched table: the first entry is as before, then comes ours, and then the end. -/
theorem regWord_patchRegs (code : ShimCode cls.bits) (hk : k < 6) :
    regWord (patchRegs code table m) table k =
      if k < 2 then regWord m table k else if k = 2 then code.empty
      else if k = 3 then code.loadLuaLibs else 0 := by
  simp only [patchRegs, regWord_setRegWord (by decide : 5 < 6) hk,
    regWord_setRegWord (by decide : 4 < 6) hk, regWord_setRegWord (by decide : 3 < 6) hk,
    regWord_setRegWord (by decide : 2 < 6) hk]
  split_ifs <;> first | rfl | omega

/-- The patch stays inside the table. -/
theorem patchRegs_of_not_inRange (code : ShimCode cls.bits) {p : BitVec cls.bits}
    (h : ¬ Memory.InRange table (6 * cls.wordBytes) p) : patchRegs code table m p = m p := by
  have hword : ∀ (m : Memory cls.bits) (v : BitVec cls.bits) {k : Nat}, k < 6 →
      setRegWord table m k v p = m p :=
    fun m v _ hk => storeWord_of_not_inRange m v fun hp => h (inRange_regWord hk hp)
  simp only [patchRegs]
  rw [hword _ _ (by decide), hword _ _ (by decide), hword _ _ (by decide), hword _ _ (by decide)]

/-- The loop of `luaL_openlibs` over a table, from an entry on: the names and the functions that are
called with them. -/
def openRegs (m : Memory cls.bits) (table : BitVec cls.bits) :
    Nat → Nat → Fallible (List (BitVec cls.bits × BitVec cls.bits))
  | 0, _ => .error .nonTermination
  | fuel + 1, i =>
      if regWord m table (2 * i + 1) = 0 then
        .ok []
      else do
        let rest ← openRegs m table fuel (i + 1)
        return (regWord m table (2 * i), regWord m table (2 * i + 1)) :: rest

/-- The game calls the function of its first entry, and then ours. -/
theorem openRegs_patched (code : ShimCode cls.bits)
    (hpatched : ∀ k < 6, regWord m' table k = regWord (patchRegs code table m) table k)
    {fuel : Nat} (hfuel : 3 ≤ fuel) :
    openRegs m' table fuel 0 = .ok (if regWord m table 1 = 0 then []
      else [(regWord m table 0, regWord m table 1), (code.empty, code.loadLuaLibs)]) := by
  have hwords : ∀ k < 6, regWord m' table k =
      if k < 2 then regWord m table k else if k = 2 then code.empty
      else if k = 3 then code.loadLuaLibs else 0 :=
    fun k hk => (hpatched k hk).trans (regWord_patchRegs code hk)
  rcases Nat.exists_eq_add_of_le hfuel with ⟨rest, rfl⟩
  rw [show 3 + rest = rest + 1 + 1 + 1 by omega]
  simp only [openRegs, Nat.mul_zero, Nat.zero_add, Nat.mul_one, Nat.reduceAdd, Nat.reduceMul,
    hwords 0 (by decide), hwords 1 (by decide), hwords 2 (by decide), hwords 3 (by decide),
    hwords 5 (by decide), Nat.reduceLT, Nat.reduceEqDiff, if_true, if_false, code.loadLuaLibs_ne]
  split_ifs <;> rfl

end Table

/-! ## Global variables -/

/-- What the library puts into a global variable of a script. -/
inductive Global where
  | cfunction (symbol : String)
  | integer (n : Int)
  | library
  deriving DecidableEq

/-- The function that opens a library of Lua: one of ours, or one of the game. -/
inductive OpenFunction (w : Nat) where
  | own (symbol : String)
  | game (a : BitVec w)
  deriving DecidableEq

/-- A script: the libraries that were opened for it, and its global variables. -/
structure Script (w : Nat) where
  opened : List (String × OpenFunction w)
  globals : String → Option Global

abbrev Binding : Type := String × Global

/-- `lua_setglobal`. -/
def luaSetGlobal (globals : String → Option Global) (binding : Binding) : String → Option Global :=
  Function.update globals binding.1 (some binding.2)

/-- `lua_register` of functions under their own names. -/
def functions (symbols : List String) : List Binding :=
  symbols.map fun symbol => (symbol, .cfunction symbol)

/-- `knLuaPushEnum`. -/
def numbers (names : List (String × Int)) : List Binding :=
  names.map fun name => (name.1, .integer name.2)

def knEnableLog : List Binding :=
  functions ["knLog"] ++ numbers [("LOG_INFO", 4), ("LOG_WARN", 5), ("LOG_ERROR", 6)]

def knEnablePeekPoke : List Binding :=
  functions ["knSymbolAddr", "knPeek", "knPoke", "knSystemAbi", "knInvertBranch"] ++
    numbers [("KN_TYPE_ADDR", 1), ("KN_TYPE_BOOL", 2), ("KN_TYPE_SHORT", 3), ("KN_TYPE_INT", 4),
      ("KN_TYPE_FLOAT", 5), ("KN_TYPE_STRING", 6), ("KN_TYPE_BYTES", 7)]

def knEnableHttp : List Binding :=
  functions ["knHttpRequest", "knHttpUpdate", "knHttpData", "knHttpDataSize", "knHttpContentType",
      "knHttpError", "knHttpErrorCode", "knHttpRelease", "knHttpExtractNxArchive"] ++
    numbers [("KN_HTTP_PENDING", 1), ("KN_HTTP_DONE", 2), ("KN_HTTP_ERROR", 3)]

def knEnableSystem : List Binding :=
  functions ["knGetShimVersion", "knGetInternalDataPath", "knGetExternalDataPath"]

def knEnableRegistry : List Binding :=
  functions ["knRegSet", "knRegGet", "knRegHas", "knRegDelete", "knRegCount", "knRegKeys"]

def knEnableDatabase : List Binding :=
  functions ["knDbSet", "knDbGet", "knDbHas", "knDbDelete"]

def knEnableFile : List Binding :=
  functions ["knWriteFile", "knReadFile", "knRenameFile", "knDeleteFile", "knIsFile", "knMakeDir"]

def knEnableGamectl : List Binding :=
  functions ["knSetBalls", "knGetBalls", "knSetStreak", "knGetStreak", "knSetNoclip", "knGetNoclip",
    "knDownloadFile", "knHttpPost", "knConnectAssetServer", "knDisconnectAssetServer",
    "knIsConnectedToAssetServer", "knEnableReloading", "knReload", "knShitpost",
    "knLevelHitSomething", "knLevelStreakAbort", "knLevelStreakInc", "knLevelAddScore",
    "knLevelExplosion"]

def knEnableOverlay : List Binding :=
  functions ["knMountOverlay", "knUnmountOverlay", "knLoadTemplates", "knSetPlayerZeroState"]

/-- What `load_lua_libs` registers. -/
def enables : List Binding :=
  knEnableLog ++ knEnablePeekPoke ++ knEnableHttp ++ knEnableSystem ++ knEnableRegistry ++
    knEnableDatabase ++ knEnableFile ++ knEnableGamectl

/-- What the hook of `Script::load` registers. -/
def hyperspaceEnables : List Binding := enables ++ knEnableOverlay

/-! ## The libraries of Lua -/

/-- `lualibs`. -/
def lualibs : List (String × String) :=
  [("io", "luaopen_io"), ("os", "luaopen_os"), ("string", "luaopen_string"),
    ("math", "luaopen_math"), ("debug", "luaopen_debug")]

section Libraries

variable {cls : ElfClass} (leaf : LeafObject cls.bits) (m : Memory cls.bits)

/-- A library is opened: its function is called, which puts the library into a global variable. -/
def openLibrary {w : Nat} (script : Script w) (name : String) (func : OpenFunction w) :
    Fallible (Script w) :=
  if func = .game 0 then
    .error .nullDeref
  else
    .ok { opened := script.opened ++ [(name, func)]
          globals := luaSetGlobal script.globals (name, .library) }

def luaopenTableName : CString := CString.literal "luaopen_table"

/-- `luaL_openlibs`, which opens the library for tables with the function of the game. -/
def luaLOpenlibs (script : Script cls.bits) : Fallible (Script cls.bits) := do
  let script ← lualibs.foldlM (fun script lib => openLibrary script lib.1 (.own lib.2)) script
  openLibrary script "table" (.game (knGetSymbolAddr leaf m luaopenTableName))

/-- The libraries are opened, and the functions are registered. -/
def openAndRegister (bindings : List Binding) (script : Script cls.bits) :
    Fallible (Script cls.bits) := do
  let script ← luaLOpenlibs leaf m script
  return { script with globals := bindings.foldl luaSetGlobal script.globals }

/-- `load_lua_libs`. -/
def loadLuaLibs (script : Script cls.bits) : Fallible (Script cls.bits) :=
  openAndRegister leaf m enables script

/-- `script_load_hook`; `realLoad` is the original, which loads the script at the path. -/
def scriptLoadHook (realLoad : CString → Script cls.bits → Fallible (Script cls.bits))
    (path : CString) (script : Script cls.bits) : Fallible (Script cls.bits) := do
  let script ← realLoad path script
  if path = CString.literal "menu/main.lua" then
    openAndRegister leaf m hyperspaceEnables script
  else
    return script

end Libraries

/-! ## What a script finds -/

/-- Variables with different names are all found. -/
theorem foldl_luaSetGlobal {bindings : List Binding} (hnodup : (bindings.map Prod.fst).Nodup)
    (globals : String → Option Global) :
    (∀ binding ∈ bindings, bindings.foldl luaSetGlobal globals binding.1 = some binding.2) ∧
      ∀ name ∉ bindings.map Prod.fst, bindings.foldl luaSetGlobal globals name = globals name := by
  induction bindings generalizing globals with
  | nil => exact ⟨by simp, fun _ _ => rfl⟩
  | cons first bindings ih =>
      rw [List.map_cons, List.nodup_cons] at hnodup
      rcases ih hnodup.2 (luaSetGlobal globals first) with ⟨hfound, hothers⟩
      rw [List.foldl_cons]
      constructor
      · intro binding hmem
        rcases List.mem_cons.mp hmem with rfl | hmem
        · -- no later variable has the name of the first one
          rw [hothers _ hnodup.1]
          exact Function.update_self _ _ _
        · exact hfound binding hmem
      · intro name hname
        rw [List.map_cons, List.mem_cons, not_or] at hname
        rw [hothers name hname.2]
        exact Function.update_of_ne hname.1 _ _

section Provided

variable {cls : ElfClass} {leaf : LeafObject cls.bits} {m : Memory cls.bits}
  {bindings : List Binding} {script script' : Script cls.bits} {a : BitVec cls.bits}

/-- The libraries that are opened for a script, when the function of the game is at `a`. -/
def libraries {w : Nat} (a : BitVec w) : List (String × OpenFunction w) :=
  lualibs.map (fun lib => (lib.1, .own lib.2)) ++ [("table", .game a)]

/-- The variables of the libraries. -/
def libraryBindings : List Binding :=
  ["io", "os", "string", "math", "debug", "table"].map fun name => (name, .library)

/-- A script has the libraries and the variables, and keeps the others. -/
structure Provides (bindings : List Binding) (a : BitVec cls.bits)
    (script script' : Script cls.bits) : Prop where
  opened : script'.opened = script.opened ++ libraries a
  found : ∀ binding ∈ libraryBindings ++ bindings, script'.globals binding.1 = some binding.2
  others : ∀ name ∉ (libraryBindings ++ bindings).map Prod.fst,
    script'.globals name = script.globals name

theorem luaLOpenlibs_eq (hfound : knGetSymbolAddr leaf m luaopenTableName = a) (ha : a ≠ 0)
    (script : Script cls.bits) :
    luaLOpenlibs leaf m script =
      .ok ⟨script.opened ++ libraries a, libraryBindings.foldl luaSetGlobal script.globals⟩ := by
  have hnonnull : ¬ a = BitVec.ofNat cls.bits 0 := ha
  rw [luaLOpenlibs, hfound]
  simp [lualibs, openLibrary, libraries, libraryBindings, hnonnull]

/-- A script is given everything exactly when the game has the library for tables. -/
theorem openAndRegister_provides (hfound : knGetSymbolAddr leaf m luaopenTableName = a)
    (hnodup : ((libraryBindings ++ bindings).map Prod.fst).Nodup) (script : Script cls.bits) :
    (a = 0 → openAndRegister leaf m bindings script = .error .nullDeref) ∧
      (a ≠ 0 → ∃ script', openAndRegister leaf m bindings script = .ok script' ∧
        Provides bindings a script script') := by
  constructor
  · intro ha
    rw [openAndRegister, luaLOpenlibs, hfound, ha]
    simp [lualibs, openLibrary]
  · intro ha
    rcases foldl_luaSetGlobal hnodup script.globals with ⟨hbound, hothers⟩
    refine ⟨⟨script.opened ++ libraries a,
      (libraryBindings ++ bindings).foldl luaSetGlobal script.globals⟩, ?_, rfl, hbound, hothers⟩
    rw [openAndRegister, luaLOpenlibs_eq hfound ha, List.foldl_append]
    rfl

end Provided

/-- All names that scripts are given are different. -/
theorem hyperspaceEnables_nodup : ((libraryBindings ++ hyperspaceEnables).map Prod.fst).Nodup := by
  decide +kernel

theorem enables_nodup : ((libraryBindings ++ enables).map Prod.fst).Nodup := by
  have hnodup := hyperspaceEnables_nodup
  rw [hyperspaceEnables, ← List.append_assoc, List.map_append] at hnodup
  exact (List.nodup_append.mp hnodup).1

end Startup
end KnShim
