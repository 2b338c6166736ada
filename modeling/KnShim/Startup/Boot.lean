import KnShim.Startup.Scripts

/-!
# Startup.Boot — from the file to the first script

`android_main` looks up symbols while it changes the memory in which they are.  When the symbol
table and its names are apart from what is changed, each symbol is found where the file has it, and
then `androidMain_boots` says what there is in the end: the game is called, its table of Lua
libraries leads to ours, the hooks are set in order, and the database has its path.
-/

namespace KnShim
namespace Startup

open Lib AndrLeaf LeafHook

/-! ## Symbols -/

section Symbols

variable {cls : ElfClass} {linker : Linker cls.bits} {leaf : LeafObject cls.bits}
  {m₀ m : Memory cls.bits} {name : CString}

theorem leafSymbolAddr_eq (hname : name.length < 2 ^ cls.bits) :
    leafSymbolAddr (leaf.table m) (some name) = .ok (knGetSymbolAddr leaf m name) :=
  leafSymbolAddr_table m leaf hname

/-- A name leads to what it stands for as long as the symbols are kept. -/
theorem knGetSymbolAddr_kept (h : SymbolTable leaf m₀)
    (hkept : ∀ p, SymbolSpace leaf (linkSymbols linker leaf m₀) p →
      m p = linkSymbols linker leaf m₀ p) (hname : name.length < 2 ^ cls.bits) :
    knGetSymbolAddr leaf m name = symbolAddress linker leaf m₀ name := by
  have hfound := leafSymbolAddr_kept h hkept hname
  rw [leafSymbolAddr_eq hname] at hfound
  exact Except.ok.inj hfound

/-- The names in the source are short. -/
theorem short_name (h : name.length ≤ 64) : name.length < 2 ^ cls.bits := by
  have hbits : 64 < 2 ^ cls.bits := by cases cls <;> decide
  exact lt_of_le_of_lt h hbits

end Symbols

theorem GameFunction.symbol_short (f : GameFunction) : f.symbol.length ≤ 64 := by
  cases f <;> decide

theorem hookArch_layout (target : Target) : ∃ items jump, (hookArch target).Layout items jump := by
  cases target with
  | armv7 => exact ⟨_, _, aarch32_layout⟩
  | aarch64 => exact ⟨_, _, aarch64_layout⟩

/-! ## The path of the database -/

/-- `gDatabasePath`, for the path of the app. -/
def databasePath (internal : CString) : CString :=
  (internal.append (CString.literal "/")).append basePath

/-- The block is large enough for the parts of the path. -/
theorem knDatabaseInit_eq {target : Target} {device : Device target} {internal : CString}
    (hinternal : device.internalDataPath = some internal) (hmalloc : device.mallocPath = true)
    (s : Process (bitsOf target)) :
    knDatabaseInit device s = .ok { s with
      gDatabasePath := some (databasePath internal) } := by
  have hslash : (CString.literal "/").length = 1 := by decide
  have hsize : (List.ofFn (device.heap (internal.length + 1 + basePath.length + 1))).length =
      internal.length + 1 + basePath.length + 1 := List.length_ofFn
  have hroom : internal.length + 1 ≤
      (List.ofFn (device.heap (internal.length + 1 + basePath.length + 1))).length := by omega
  rcases CString.store_zero internal hroom with ⟨first, hfirst, hstarts, hfirstSize⟩
  rcases CString.store_append (t := CString.literal "/") hstarts (by omega) with
    ⟨second, hsecond, hstarts', hsecondSize⟩
  rcases CString.store_append (t := basePath) hstarts'
    (by rw [CString.append_length]; omega) with ⟨third, hthird, hstarts'', _⟩
  simp only [knDatabaseInit, hinternal, hmalloc, if_true, hfirst, hsecond, hthird,
    CString.read_of_starts hstarts, CString.read_of_starts hstarts',
    CString.read_of_starts hstarts'', Fallible.ok_bind, Fallible.pure_eq, databasePath]

/-! ## The start -/

section Boot

variable {target : Target} (build : Build) (code : ShimCode (bitsOf target))
  (device : Device target) (input : Input (platformOf target).cls) (base : BitVec (bitsOf target))
  (dyns : List LeafDyn)

/-- The game's library. -/
def gameLeaf : LeafObject (bitsOf target) :=
  loadedLeaf (platformOf target) device.system device.linker input base dyns

/-- Its memory when it has been loaded. -/
def gameMemory : Memory (bitsOf target) :=
  (loaded (platformOf target) device.system device.linker input base dyns).memory

/-- Its memory with the symbols alone. -/
def gameSymbols : Memory (bitsOf target) :=
  linkSymbols device.linker (gameLeaf device input base dyns) (input.laidOut device.system base)

/-- What a name stands for in the file. -/
def gameAddress (name : CString) : BitVec (bitsOf target) :=
  symbolAddress device.linker (gameLeaf device input base dyns) (input.laidOut device.system base)
    name

/-- The table of Lua libraries. -/
def gameTable : BitVec (bitsOf target) :=
  luaRegTable (gameAddress device input base dyns vtableName)

/-- What is read to look up a symbol. -/
def GameSymbolSpace (p : BitVec (bitsOf target)) : Prop :=
  SymbolSpace (gameLeaf device input base dyns) (gameSymbols device input base dyns) p

/-- The addresses of the table. -/
def InTable (p : BitVec (bitsOf target)) : Prop :=
  Memory.InRange (gameTable device input base dyns) (6 * (platformOf target).cls.wordBytes) p

/-- What the hooks change. -/
def HookPlace (p : BitVec (bitsOf target)) : Prop :=
  (∃ f ∈ build.hooked, HookedAt target (gameAddress device input base dyns f.symbol) p) ∨
    HookArea device p

/-- The memory before the hooks are set. -/
def unhooked : Memory (bitsOf target) :=
  if build = .hyperspace then gameMemory device input base dyns
  else patchRegs code (gameTable device input base dyns)
    (gameMemory device input base dyns)

/-- The file is loaded, the device has memory for what asks for it, the symbols that are used are
there, and what is changed is apart from the symbols and from the table. -/
structure Bootable (pos : Nat) : Prop where
  mallocLeaf : device.mallocLeaf = true
  asset : device.openAsset (assetPath target) = some input
  loads : Loads device.system input base pos dyns
  symbols : SymbolTable (gameLeaf device input base dyns) (input.laidOut device.system base)
  kept : ∀ p, GameSymbolSpace device input base dyns p →
    gameMemory device input base dyns p = gameSymbols device input base dyns p
  internal : device.internalDataPath ≠ none
  external : build ≠ .hyperspace → device.externalDataPath ≠ none
  mallocPath : device.mallocPath = true
  roomy : device.Roomy
  vtable : build ≠ .hyperspace → gameAddress device input base dyns vtableName ≠ 0
  table : build ≠ .hyperspace → gameTable device input base dyns ≠ 0
  functions : ∀ f ∈ build.hooked, gameAddress device input base dyns f.symbol ≠ 0
  tableSymbols : build ≠ .hyperspace → ∀ p, GameSymbolSpace device input base dyns p →
    ¬ InTable device input base dyns p
  hooksSymbols : ∀ p, GameSymbolSpace device input base dyns p →
    ¬ HookPlace build device input base dyns p
  hooksTable : build ≠ .hyperspace → ∀ p, InTable device input base dyns p →
    ¬ HookPlace build device input base dyns p

/-- What there is when the game is called: from then on, as long as the symbols and the table are
left alone. -/
structure Boots (s : Process (bitsOf target)) : Prop where
  symbols : ∀ m, (∀ p, GameSymbolSpace device input base dyns p → m p = s.hooks.mem p) →
    ∀ name : CString, name.length < 2 ^ bitsOf target →
      leafSymbolAddr ((gameLeaf device input base dyns).table m) (some name) =
        .ok (gameAddress device input base dyns name)
  hooks : ∃ answers, (hookMachine (hookArch target) device.pageSize
    (unhooked build code device input base dyns)).run (build.hooked.map
      (hookCall code device fun f => gameAddress device input base dyns f.symbol)) =
        .ok (s.hooks, answers)
  originals : build.hooked.filterMap s.originals = s.hooks.stubs.map Stub.base
  databasePath : ∃ internal, device.internalDataPath = some internal ∧
    s.gDatabasePath = some (databasePath internal)
  table : build ≠ .hyperspace → ∀ m,
    (∀ p, InTable device input base dyns p → m p = s.hooks.mem p) → ∀ fuel, 3 ≤ fuel →
      openRegs m (gameTable device input base dyns) fuel 0 =
        .ok (if regWord (gameMemory device input base dyns)
            (gameTable device input base dyns) 1 = 0 then []
          else [(regWord (gameMemory device input base dyns)
              (gameTable device input base dyns) 0,
            regWord (gameMemory device input base dyns)
              (gameTable device input base dyns) 1), (code.empty, code.loadLuaLibs)])
  scripts : ∀ m, (∀ p, GameSymbolSpace device input base dyns p → m p = s.hooks.mem p) →
    gameAddress device input base dyns luaopenTableName ≠ 0 →
      ∀ script : Script (bitsOf target), ∃ script',
        loadLuaLibs (gameLeaf device input base dyns) m script =
            .ok script' ∧
          Provides enables
            (gameAddress device input base dyns luaopenTableName) script script'
  menu : ∀ m, (∀ p, GameSymbolSpace device input base dyns p → m p = s.hooks.mem p) →
    gameAddress device input base dyns luaopenTableName ≠ 0 →
      ∀ realLoad (script loaded : Script (bitsOf target)),
        realLoad (CString.literal "menu/main.lua") script = .ok loaded → ∃ script',
          scriptLoadHook (gameLeaf device input base dyns) m
              realLoad (CString.literal "menu/main.lua") script = .ok script' ∧
            Provides hyperspaceEnables
              (gameAddress device input base dyns luaopenTableName) loaded script'

variable {build code device input base dyns} {pos : Nat} {done : List GameFunction}
  {s : Process (bitsOf target)}

/-- The hooks for some functions of the build are set. -/
abbrev HooksSet (build : Build) (code : ShimCode (bitsOf target)) (device : Device target)
    (input : Input (platformOf target).cls) (base : BitVec (bitsOf target)) (dyns : List LeafDyn)
    (done : List GameFunction) (s : Process (bitsOf target)) : Prop :=
  Started code device (fun f => gameAddress device input base dyns f.symbol)
    (unhooked build code device input base dyns) done s

/-- The hooks leave everything else alone. -/
theorem HooksSet.keeps (hset : HooksSet build code device input base dyns done s)
    (hdone : ∀ f ∈ done, f ∈ build.hooked) {p : BitVec (bitsOf target)}
    (hp : ¬ HookPlace build device input base dyns p) :
    s.hooks.mem p = unhooked build code device input base dyns p := by
  rw [HookPlace, not_or] at hp
  exact Started.frame hset p (fun f hf hplace => hp.1 ⟨f, hdone f hf, hplace⟩) hp.2

namespace Bootable

variable (h : Bootable build device input base dyns pos)
include h

/-- Before the hooks are set, the symbols are as the file has them. -/
theorem unhooked_symbols {p : BitVec (bitsOf target)}
    (hp : GameSymbolSpace device input base dyns p) :
    unhooked build code device input base dyns p = gameSymbols device input base dyns p := by
  rw [unhooked]
  split_ifs with hbuild
  · exact h.kept p hp
  · rw [patchRegs_of_not_inRange code (h.tableSymbols hbuild p hp)]
    exact h.kept p hp

theorem hooked_symbols (hset : HooksSet build code device input base dyns done s)
    (hdone : ∀ f ∈ done, f ∈ build.hooked) {p : BitVec (bitsOf target)}
    (hp : GameSymbolSpace device input base dyns p) :
    s.hooks.mem p = gameSymbols device input base dyns p :=
  (HooksSet.keeps hset hdone (h.hooksSymbols p hp)).trans (h.unhooked_symbols hp)

/-- A symbol is found while the hooks are being set. -/
theorem found (hset : HooksSet build code device input base dyns done s)
    (hdone : ∀ f ∈ done, f ∈ build.hooked) {name : CString} (hname : name.length ≤ 64) :
    knGetSymbolAddr (gameLeaf device input base dyns) s.hooks.mem name =
      gameAddress device input base dyns name :=
  knGetSymbolAddr_kept h.symbols (fun _ hp => h.hooked_symbols hset hdone hp) (short_name hname)

/-- A function of the build is hooked. -/
theorem hook (hset : HooksSet build code device input base dyns done s)
    (hdone : ∀ f ∈ done, f ∈ build.hooked) (hn : done.length < 3) {f : GameFunction}
    (hf : f ∈ build.hooked) (hnew : f ∉ done) :
    ∃ s', hookGameFunction code device (gameLeaf device input base dyns) f s = .ok s' ∧
      HooksSet build code device input base dyns (done ++ [f]) s' ∧
      s'.gDatabasePath = s.gDatabasePath := by
  rcases hookArch_layout target with ⟨items, jump, hlayout⟩
  rcases hset.hook hlayout h.roomy hn hnew (h.functions f hf)
    (h.found hset hdone f.symbol_short) with ⟨s', hrun, hset', hsame⟩
  refine ⟨s', hrun, hset', ?_⟩
  rw [hsame]

/-! ## The modules -/

/-- `KNInitLua` hooks `Script::load`. -/
theorem knInitLua_hooked (code : ShimCode (bitsOf target)) (hbuild : build = .hyperspace) :
    ∃ s, knInitLua build code device (gameLeaf device input base dyns)
        (Process.fresh (gameMemory device input base dyns)) = .ok s ∧
      HooksSet build code device input base dyns [.scriptLoad] s := by
  rcases Option.ne_none_iff_exists'.mp h.internal with ⟨internal, hinternal⟩
  have hunhooked : unhooked build code device input base dyns =
      gameMemory device input base dyns := if_pos hbuild
  have hset : HooksSet build code device input base dyns []
      (Process.fresh (gameMemory device input base dyns)) := by
    rw [HooksSet, hunhooked]
    exact Started.none rfl rfl
  rcases h.hook hset (by simp) (by decide) (f := .scriptLoad) (by rw [hbuild]; decide)
    (by simp) with ⟨s, hrun, hset', _⟩
  refine ⟨{ s with gAndroidInternalDataPath :=
    if device.strdupInternal then some internal else none }, ?_, Started.congr hset' rfl rfl⟩
  rw [knInitLua, if_pos hbuild, hrun, hinternal]
  rfl

/-- `KNInitLua` patches the table. -/
theorem knInitLua_patched (code : ShimCode (bitsOf target)) (hbuild : build ≠ .hyperspace) :
    ∃ s, knInitLua build code device (gameLeaf device input base dyns)
        (Process.fresh (gameMemory device input base dyns)) = .ok s ∧
      HooksSet build code device input base dyns [] s := by
  rcases Option.ne_none_iff_exists'.mp h.internal with ⟨internal, hinternal⟩
  rcases Option.ne_none_iff_exists'.mp (h.external hbuild) with ⟨external, hexternal⟩
  have hvtable : knGetSymbolAddr (gameLeaf device input base dyns)
      (gameMemory device input base dyns) vtableName =
        gameAddress device input base dyns vtableName :=
    knGetSymbolAddr_kept h.symbols h.kept (short_name (by decide))
  have htable : luaRegTable (gameAddress device input base dyns vtableName) ≠ 0 :=
    h.table hbuild
  have hunhooked : unhooked build code device input base dyns =
      patchRegs code (gameTable device input base dyns)
        (gameMemory device input base dyns) := if_neg hbuild
  refine ⟨{ Process.fresh (unhooked build code device input base dyns) with
      gAndroidInternalDataPath := if device.strdupInternal then some internal else none
      gAndroidExternalDataPath := if device.strdupExternal then some external else none },
    ?_, Started.none rfl rfl⟩
  rw [knInitLua, if_neg hbuild, hunhooked]
  simp only [Process.fresh, hvtable, if_neg htable, if_neg (h.vtable hbuild), hinternal,
    hexternal, strdup, Fallible.ok_bind, Fallible.pure_eq]
  rfl

/-- `KNCipherInit` sets its hook. -/
theorem knCipherInit_hooked (hbuild : build = .cipher)
    (hset : HooksSet build code device input base dyns [] s) :
    ∃ s', knCipherInit code device (gameLeaf device input base dyns) s = .ok s' ∧
      HooksSet build code device input base dyns [.resManLoad] s' ∧
      s'.gDatabasePath = s.gDatabasePath := by
  rcases h.hook hset (by simp) (by decide) (f := .resManLoad) (by rw [hbuild]; decide) (by simp)
    with ⟨s', hrun, hset', hpath⟩
  refine ⟨{ s' with writeBuffer := some (knGetSymbolAddr (gameLeaf device input base dyns)
    s'.hooks.mem (writeBufferName target)) }, ?_, Started.congr hset' rfl rfl, hpath⟩
  rw [knCipherInit, hrun]
  rfl

/-- `KNOverlayInit` sets its hooks behind that of `KNInitLua`. -/
theorem knOverlayInit_hooked (hbuild : build = .hyperspace)
    (hset : HooksSet build code device input base dyns [.scriptLoad] s) :
    ∃ s', knOverlayInit code device (gameLeaf device input base dyns) s = .ok s' ∧
      HooksSet build code device input base dyns [.scriptLoad, .resManLoad, .playerZero] s' ∧
      s'.gDatabasePath = s.gDatabasePath := by
  have hfound : HooksSet build code device input base dyns [.scriptLoad] { s with
      writeBuffer := some (knGetSymbolAddr (gameLeaf device input base dyns)
        s.hooks.mem (writeBufferName target))
      loadTemplates := some (knGetSymbolAddr (gameLeaf device input base dyns)
        s.hooks.mem loadTemplatesName) } := Started.congr hset rfl rfl
  rcases h.hook hfound (by simp [hbuild, Build.hooked]) (by decide) (f := .resManLoad)
    (by rw [hbuild]; decide) (by simp) with ⟨s₁, hrun₁, hset₁, hpath₁⟩
  rcases h.hook hset₁ (by simp [hbuild, Build.hooked]) (by decide) (f := .playerZero)
    (by rw [hbuild]; decide) (by simp) with ⟨s₂, hrun₂, hset₂, hpath₂⟩
  refine ⟨s₂, ?_, hset₂, hpath₂.trans hpath₁⟩
  rw [knOverlayInit, hrun₁]
  exact hrun₂

/-- All modules are initialised. -/
theorem inits (code : ShimCode (bitsOf target)) :
    ∃ s, (gModuleInitFuncs build code device (gameLeaf device input base dyns)).foldlM
        (fun s init => init s) (Process.fresh (gameMemory device input base dyns)) = .ok s ∧
      HooksSet build code device input base dyns build.hooked s ∧
      ∃ internal, device.internalDataPath = some internal ∧
        s.gDatabasePath = some (databasePath internal) := by
  rcases Option.ne_none_iff_exists'.mp h.internal with ⟨internal, hinternal⟩
  have hdatabase := knDatabaseInit_eq hinternal h.mallocPath
  -- the path of the database is set behind `KNInitLua`, and kept by the modules behind it
  cases build with
  | plain =>
      rcases h.knInitLua_patched code (by decide) with ⟨s, hlua, hset⟩
      refine ⟨{ s with gDatabasePath := some (databasePath internal) }, ?_,
        Started.congr hset rfl rfl, internal, hinternal, rfl⟩
      simp only [gModuleInitFuncs, List.append_nil, List.foldlM_cons, List.foldlM_nil, hlua,
        hdatabase, Fallible.ok_bind, Fallible.pure_eq]
  | cipher =>
      rcases h.knInitLua_patched code (by decide) with ⟨s, hlua, hset⟩
      have hset₁ : HooksSet .cipher code device input base dyns []
          { s with gDatabasePath := some (databasePath internal) } := Started.congr hset rfl rfl
      rcases h.knCipherInit_hooked rfl hset₁ with ⟨s', hcipher, hset', hpath⟩
      refine ⟨s', ?_, hset', internal, hinternal, hpath⟩
      simp only [gModuleInitFuncs, List.cons_append, List.nil_append, List.foldlM_cons,
        List.foldlM_nil, hlua, hdatabase, hcipher, Fallible.ok_bind, Fallible.pure_eq]
  | hyperspace =>
      rcases h.knInitLua_hooked code rfl with ⟨s, hlua, hset⟩
      have hset₁ : HooksSet .hyperspace code device input base dyns [.scriptLoad]
          { s with gDatabasePath := some (databasePath internal) } := Started.congr hset rfl rfl
      rcases h.knOverlayInit_hooked rfl hset₁ with ⟨s', hoverlay, hset', hpath⟩
      refine ⟨s', ?_, hset', internal, hinternal, hpath⟩
      simp only [gModuleInitFuncs, List.cons_append, List.nil_append, List.foldlM_cons,
        List.foldlM_nil, hlua, hdatabase, hoverlay, Fallible.ok_bind, Fallible.pure_eq]

/-- What there is when all modules are initialised. -/
theorem boots (hset : HooksSet build code device input base dyns build.hooked s)
    (hpath : ∃ internal, device.internalDataPath = some internal ∧
      s.gDatabasePath = some (databasePath internal)) :
    Boots build code device input base dyns s := by
  have hkept : ∀ m : Memory (bitsOf target),
      (∀ p, GameSymbolSpace device input base dyns p → m p = s.hooks.mem p) →
      ∀ p, GameSymbolSpace device input base dyns p →
        m p = gameSymbols device input base dyns p :=
    fun m hm p hp => (hm p hp).trans (h.hooked_symbols hset (fun _ hf => hf) hp)
  have hopened : ∀ m : Memory (bitsOf target),
      (∀ p, GameSymbolSpace device input base dyns p → m p = s.hooks.mem p) →
      knGetSymbolAddr (gameLeaf device input base dyns) m luaopenTableName =
        gameAddress device input base dyns luaopenTableName :=
    fun m hm => knGetSymbolAddr_kept h.symbols (hkept m hm) (short_name (by decide))
  constructor
  case symbols => exact fun m hm name hname => leafSymbolAddr_kept h.symbols (hkept m hm) hname
  case hooks => exact hset.run
  case originals => exact hset.originals
  case databasePath => exact hpath
  case table =>
    intro hbuild m hm fuel hfuel
    -- the hooks and what comes later leave the table as it was patched
    refine openRegs_patched code (fun k hk => regWord_congr hk fun p hp => ?_) hfuel
    rw [hm p hp, HooksSet.keeps hset (fun _ hf => hf) (h.hooksTable hbuild p hp), unhooked,
      if_neg hbuild]
  case scripts =>
    intro m hm ha script
    exact (openAndRegister_provides (hopened m hm) enables_nodup script).2 ha
  case menu =>
    intro m hm ha realLoad script loaded hload
    rcases (openAndRegister_provides (hopened m hm) hyperspaceEnables_nodup loaded).2 ha with
      ⟨script', hrun, hprovides⟩
    refine ⟨script', ?_, hprovides⟩
    rw [scriptLoadHook, hload, Fallible.ok_bind, if_pos rfl]
    exact hrun

end Bootable

end Boot

/-- `android_main` calls the `android_main` of the game, at its run-time address, when everything is
in place, and gives up with a message when the game has none. -/
theorem androidMain_boots (target : Target) (build : Build) (code : ShimCode (bitsOf target))
    (device : Device target) (input : Input (platformOf target).cls) (base : BitVec (bitsOf target))
    (dyns : List LeafDyn) (pos : Nat) (h : Bootable build device input base dyns pos) :
    ∃ s, Boots build code device input base dyns s ∧
      androidMain build code device =
        .ok (if gameAddress device input base dyns mainName = 0 then
            .logged "Could not find android_main()"
          else .called (gameAddress device input base dyns mainName)
            (gameLeaf device input base dyns) s) := by
  rcases h.inits code with ⟨s, hrun, hset, hpath⟩
  refine ⟨s, h.boots hset hpath, ?_⟩
  have hload : leafLoadFromBuffer (platformOf target) device.system device.linker input
      (leafInit _) = .ok (loaded (platformOf target) device.system device.linker input base dyns) :=
    (leafLoadFromBuffer_eq_ok_iff _ _ _ _ _).mpr ⟨base, pos, dyns, h.loads, rfl⟩
  have hmain := h.found hset (fun _ hf => hf) (by decide : mainName.length ≤ 64)
  have hleaf : (loaded (platformOf target) device.system device.linker input base dyns).leaf =
      gameLeaf device input base dyns := rfl
  have hmemory : (loaded (platformOf target) device.system device.linker input base dyns).memory =
      gameMemory device input base dyns := rfl
  have hinstall : installAndCall build code device
      (loaded (platformOf target) device.system device.linker input base dyns) =
        .ok (if gameAddress device input base dyns mainName = 0 then
            .logged "Could not find android_main()"
          else .called (gameAddress device input base dyns mainName)
            (gameLeaf device input base dyns) s) := by
    rw [installAndCall, hleaf, hmemory, hrun, Fallible.ok_bind]
    simp only [hmain]
    split_ifs <;> rfl
  rw [androidMain, if_pos h.mallocLeaf, h.asset]
  simp only [hload]
  exact hinstall

/-! ## A small game -/

namespace Sample

/-- A library with a table of Lua libraries behind its first symbol, `ResMan::load` and
`android_main`, and without relocations. -/
def game : Input (platformOf .aarch64).cls where
  contents := 0x8000
  bytes := AndrLeaf.Sample.ehdr64 56 2 ++ AndrLeaf.Sample.phdr64 1 0 0 488 488 ++
    AndrLeaf.Sample.phdr64 2 488 488 224 224 ++ toLE 4 1 ++ toLE 4 4 ++
    List.replicate 24 0 ++ (toLE 4 1 ++ [0x11, 0] ++ toLE 2 1 ++ toLE 8 368 ++ toLE 8 8) ++
    (toLE 4 25 ++ [0x12, 0] ++ toLE 2 1 ++ toLE 8 480 ++ toLE 8 8) ++
    (toLE 4 38 ++ [0x12, 0] ++ toLE 2 1 ++ toLE 8 464 ++ toLE 8 16) ++
    0 :: (vtableName.bytes ++ 0 :: (mainName.bytes ++
      0 :: (GameFunction.symbol .resManLoad).bytes ++ List.replicate 6 0)) ++
    List.replicate 48 0 ++ toLE 8 0x10118 ++ toLE 8 0x10300 ++ List.replicate 32 0 ++
    List.replicate 24 0 ++
    AndrLeaf.Sample.dyn64 4 176 ++ AndrLeaf.Sample.dyn64 5 280 ++ AndrLeaf.Sample.dyn64 6 184 ++
    AndrLeaf.Sample.dyn64 7 488 ++ AndrLeaf.Sample.dyn64 8 0 ++ AndrLeaf.Sample.dyn64 9 24 ++
    AndrLeaf.Sample.dyn64 23 488 ++ AndrLeaf.Sample.dyn64 2 0 ++ AndrLeaf.Sample.dyn64 20 7 ++
    AndrLeaf.Sample.dyn64 25 488 ++ AndrLeaf.Sample.dyn64 27 0 ++ AndrLeaf.Sample.dyn64 26 488 ++
    AndrLeaf.Sample.dyn64 28 0 ++ AndrLeaf.Sample.dyn64 0 0
  length_lt := by decide +kernel

/-- Its dynamic entries. -/
def gameDyns : List LeafDyn :=
  [⟨.hash, 176⟩, ⟨.strTab, 280⟩, ⟨.symTab, 184⟩, ⟨.rela, 488⟩, ⟨.relaSz, 0⟩, ⟨.relaEnt, 24⟩,
    ⟨.jmpRel, 488⟩, ⟨.pltRelSz, 0⟩, ⟨.pltRel, 7⟩, ⟨.initArray, 488⟩, ⟨.initArraySz, 0⟩,
    ⟨.finiArray, 488⟩, ⟨.finiArraySz, 0⟩]

/-- A device with memory for everything. -/
def device : Device .aarch64 where
  mallocLeaf := true
  openAsset := fun _ => some game
  system := AndrLeaf.Sample.system64
  linker := AndrLeaf.Sample.relaLinker
  internalDataPath := some (CString.literal "/data")
  externalDataPath := some (CString.literal "/sdcard")
  strdupInternal := true
  strdupExternal := true
  mallocPath := true
  heap := fun _ _ => 0xaa
  pageSize := 0x1000
  resources := fun _ => ⟨true, some ⟨0x20000, by decide, by decide, by decide⟩⟩

def shimCode : ShimCode (bitsOf .aarch64) where
  hook := fun _ => 0x40000
  loadLuaLibs := 0x41000
  empty := 0x42000
  loadLuaLibs_ne := by decide

theorem game_loads : Loads device.system game 0x10000 488 gameDyns where
  mapped := ⟨⟨⟨⟨⟨rfl, by decide +kernel⟩, by decide +kernel⟩, rfl⟩, fun _ _ => rfl,
    by decide +kernel⟩, by decide +kernel⟩
  sizes := by decide +kernel
  copies := by decide +kernel
  dynamic := ⟨by decide +kernel, by decide⟩
  entries := by decide +kernel
  there := {
    strtab := ⟨280, by decide, by decide⟩
    relocs := ⟨488, by decide, by decide⟩
    symtab := ⟨184, by decide, by decide⟩
    pltRelocs := ⟨488, by decide, by decide⟩
    initArray := ⟨488, by decide, by decide⟩
    finiArray := ⟨488, by decide, by decide⟩
    symCount := ⟨176, by decide, by decide +kernel⟩ }
  numbers := {
    relocSize := by decide
    relocEntSize := ⟨24, by decide, by decide⟩
    pltRelocsSize := by decide
    relocTypes := by decide
    initArraySize := by decide
    finiArraySize := by decide }

/-- The library and its memory. -/
abbrev leaf : LeafObject (bitsOf .aarch64) := gameLeaf device game 0x10000 gameDyns

abbrev fileMemory : Memory (bitsOf .aarch64) := game.laidOut device.system 0x10000

abbrev symbolMemory : Memory (bitsOf .aarch64) := gameSymbols device game 0x10000 gameDyns

/-- Its symbols. -/
def gameName : Nat → CString
  | 1 => vtableName
  | 2 => mainName
  | 3 => GameFunction.symbol .resManLoad
  | _ => CString.empty

theorem game_symCount : leaf.symCount = 4 := by decide +kernel

/-- The strings are the names of the symbols, one behind the other. -/
theorem game_symbols : SymbolTable leaf fileMemory where
  fits := by decide +kernel
  names := by
    intro i hi
    have hname : ∀ i < 4, strcmpAt fileMemory (stNameAt fileMemory leaf.strtab leaf.symtab i)
          (gameName i) ∧
        (gameName i).length < 2 ^ bitsOf .aarch64 ∧
        (gameName i).length + 1 ≤ (leaf.symtab -
          stNameAt fileMemory leaf.strtab leaf.symtab i).toNat ∧
        tableSize leaf ≤ (stNameAt fileMemory leaf.strtab leaf.symtab i - leaf.symtab).toNat := by
      decide +kernel
    rcases hname i (game_symCount ▸ hi) with ⟨hcmp, hlt, hfar, hfar'⟩
    rw [nameSize, (strcmpAt_iff hlt).mp hcmp]
    exact Memory.apart_of_le_sub hfar hfar'

/-- Without relocations and init functions the memory has the symbols. -/
theorem game_memory : gameMemory device game 0x10000 gameDyns =
    gameSymbols device game 0x10000 gameDyns := by
  have hcounts : loadedCounts gameDyns = ⟨0, 0⟩ := by decide
  have htypes : numberOf [.pltRel] gameDyns = dtRela := by decide
  have hinit : numberOf [.initArraySz] gameDyns / (platformOf .aarch64).cls.wordBytes = 0 := by
    decide
  unfold gameMemory gameSymbols gameLeaf
  rw [loaded]
  simp only [hinit, List.range_zero, List.foldl_nil, relocatedMemory, htypes, hcounts, relocate,
    if_true, leafDoRela]

/-- What a name of the source stands for is found in the memory. -/
theorem game_address {name : CString} (hname : name.length ≤ 64) :
    gameAddress device game 0x10000 gameDyns name = knGetSymbolAddr leaf symbolMemory name := by
  have hsame : symbolMemory = linkSymbols device.linker leaf fileMemory := rfl
  rw [gameAddress, ← knGetSymbolAddr_kept game_symbols (fun p _ => congrFun hsame p)
    (short_name hname)]

theorem game_vtable : gameAddress device game 0x10000 gameDyns vtableName = 0x10170 := by
  rw [game_address (by decide)]
  decide +kernel

theorem game_table : gameTable device game 0x10000 gameDyns = 0x101a0 := by
  rw [gameTable, game_vtable]
  decide +kernel

theorem game_resManLoad :
    gameAddress device game 0x10000 gameDyns (GameFunction.symbol .resManLoad) = 0x101d0 := by
  rw [game_address (by decide)]
  decide +kernel

theorem game_main : gameAddress device game 0x10000 gameDyns mainName = 0x101e0 := by
  rw [game_address (by decide)]
  decide +kernel

/-- What is read to look up a symbol is between the start of the symbols and the end of their
names. -/
theorem game_space {p : BitVec (bitsOf .aarch64)}
    (hp : GameSymbolSpace device game 0x10000 gameDyns p) : Memory.InRange 0x100b8 184 p := by
  have hsize : (184 : Nat) ≤ 2 ^ bitsOf .aarch64 := by decide
  rcases hp with htable | ⟨i, hi, hname⟩
  · have hstart : leaf.symtab = 0x100b8 := by decide +kernel
    have hend : tableSize leaf ≤ 184 := by decide +kernel
    rw [hstart, Memory.InRange] at htable
    exact lt_of_lt_of_le htable hend
  · have hplace : ∀ i < 4, strcmpAt symbolMemory (stNameAt symbolMemory leaf.strtab leaf.symtab i)
          (gameName i) ∧
        (gameName i).length < 2 ^ bitsOf .aarch64 ∧
        stNameAt symbolMemory leaf.strtab leaf.symtab i =
          0x100b8 + BitVec.ofNat _ ((stNameAt symbolMemory leaf.strtab leaf.symtab i).toNat -
            0x100b8) ∧
        (stNameAt symbolMemory leaf.strtab leaf.symtab i).toNat - 0x100b8 +
          ((gameName i).length + 1) ≤ 184 := by
      decide +kernel
    rcases hplace i (game_symCount ▸ hi) with ⟨hcmp, hlt, hstart, hend⟩
    rw [nameSize, (strcmpAt_iff hlt).mp hcmp, hstart] at hname
    exact (hname.of_offset hend hsize).2

/-- The hook is in `ResMan::load` and in the pages of the hooker. -/
theorem game_hookPlace {p : BitVec (bitsOf .aarch64)}
    (hp : HookPlace .cipher device game 0x10000 gameDyns p) :
    Memory.InRange 0x101d0 16 p ∨ Memory.InRange 0x20000 0xa000 p := by
  rcases hp with ⟨f, hf, hplace⟩ | ⟨f, block, hmmap, hin⟩
  · rw [List.mem_singleton.mp hf, game_resManLoad] at hplace
    exact Or.inl hplace
  · cases hmmap
    exact Or.inr hin

theorem game_bootable : Bootable .cipher device game 0x10000 gameDyns 488 where
  mallocLeaf := rfl
  asset := rfl
  loads := game_loads
  symbols := game_symbols
  kept := fun p _ => by rw [game_memory]
  internal := Option.some_ne_none _
  external := fun _ => Option.some_ne_none _
  mallocPath := rfl
  roomy := ⟨fun _ _ => Option.some_ne_none _, Nat.le_refl _⟩
  vtable := fun _ => by
    rw [game_vtable]
    decide
  table := fun _ => by
    rw [game_table]
    decide
  functions := by
    intro f hf
    rw [List.mem_singleton.mp hf, game_resManLoad]
    decide
  tableSymbols := by
    intro _ p hp
    rw [InTable, game_table]
    exact Memory.apart_of_le_sub (by decide) (by decide) p (game_space hp)
  hooksSymbols := by
    intro p hp hplace
    rcases game_hookPlace hplace with hin | hin
    · exact Memory.apart_of_le_sub (by decide) (by decide) p (game_space hp) hin
    · exact Memory.apart_of_le_sub (by decide) (by decide) p (game_space hp) hin
  hooksTable := by
    intro _ p hp hplace
    rw [InTable, game_table] at hp
    rcases game_hookPlace hplace with hin | hin
    · exact Memory.apart_of_le_sub (by decide) (by decide) p hp hin
    · exact Memory.apart_of_le_sub (by decide) (by decide) p hp hin

end Sample

/-- The small game is started with the hook of `BUILD_CIPHER`. -/
theorem androidMain_boots_game :
    ∃ s, Boots .cipher Sample.shimCode Sample.device Sample.game 0x10000 Sample.gameDyns s ∧
      androidMain .cipher Sample.shimCode Sample.device = .ok (.called 0x101e0
        (gameLeaf Sample.device Sample.game 0x10000 Sample.gameDyns) s) := by
  rcases androidMain_boots .aarch64 .cipher Sample.shimCode Sample.device Sample.game 0x10000
    Sample.gameDyns 488 Sample.game_bootable with ⟨s, hboots, hrun⟩
  refine ⟨s, hboots, ?_⟩
  rw [hrun, Sample.game_main]
  rfl

end Startup
end KnShim
