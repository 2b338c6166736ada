import KnShim.Assets.Layers
import KnShim.Lib.Machine
import KnShim.Lua.Value

/-!
# Assets.Overlay — ZIP files that are mounted over the assets

`gZip` points to the reader of the ZIP file that is mounted, in a block of its own.  miniz is a
parameter: opening a path gives an `Archive` or fails, and an asset that is extracted comes in a new
block.  So does the reader; to read a ZIP file that was ended, or in a block that was freed, and to
free a block twice, are faults.

`overlay_answers` is about every run, with memory that may be refused at any call: there is no fault,
the functions and hooks answer as an abstract `Overlay` does, and the blocks that are there are the
reader of the mounted file and nothing else.
-/

namespace KnShim
namespace Assets

open Lib Lua

/-- A ZIP file that was opened: the content of each entry that can be extracted. -/
structure Archive where
  file : CString → Option Bytes

/-! ## The functions -/

/-- `gZip`, the memory, and what the next `Player::zero` is to set. -/
structure OverlayState where
  gZip : Option Nat
  blocks : Ledger (Block Archive)
  zrBalls : BitVec 32
  zrStreak : BitVec 32

/-- `mz_zip_reader_init_file`, on a reader that holds nothing. -/
def zipReaderInitFile (opened : Option Archive) (zip : Nat) (blocks : Ledger (Block Archive)) :
    Fallible (Ledger (Block Archive) × Bool) := do
  match ← blocks.deref zip with
  | .asset _ => .error .uninitialized
  | .reader _ =>
      match opened with
      | none => return (blocks, false)
      | some archive => do
          let blocks ← blocks.store zip (.reader (some archive))
          return (blocks, true)

/-- `mz_zip_reader_end`. -/
def zipReaderEnd (zip : Nat) (blocks : Ledger (Block Archive)) :
    Fallible (Ledger (Block Archive)) := do
  match ← blocks.deref zip with
  | .asset _ => .error .uninitialized
  | .reader _ => blocks.store zip (.reader none)

/-- `mz_zip_reader_extract_file_to_heap`; `granted` says for which paths there is memory. -/
def zipExtractFileToHeap (granted : CString → Bool) (zip : Nat) : Finder Archive :=
  fun path blocks => do
    match ← blocks.deref zip with
    | .asset _ => .error .uninitialized
    | .reader none => return (blocks, none)
    | .reader (some archive) =>
        match archive.file path, granted path with
        | some content, true =>
            return ((blocks.alloc (.asset content)).1, some (blocks.alloc (.asset content)).2)
        | _, _ => return (blocks, none)

/-- `KNOverlayMount`; `opens` is what a path leads to. -/
def knOverlayMount (granted : Bool) (opens : CString → Option Archive) (path : CString)
    (s : OverlayState) : Fallible (OverlayState × Bool) :=
  if s.gZip ≠ none then .ok (s, false)
  else if !granted then .ok (s, false)
  else do
    let (blocks, zip) := s.blocks.alloc (.reader none)
    let (blocks, success) ← zipReaderInitFile (opens path) zip blocks
    if success then return ({ s with gZip := some zip, blocks := blocks }, true)
    else do
      let blocks ← blocks.free zip
      return ({ s with gZip := none, blocks := blocks }, false)

/-- `KNOverlayUnmount`. -/
def knOverlayUnmount (s : OverlayState) : Fallible (OverlayState × Bool) :=
  match s.gZip with
  | none => .ok (s, false)
  | some zip => do
      let blocks ← zipReaderEnd zip s.blocks
      let blocks ← blocks.free zip
      return ({ s with gZip := none, blocks := blocks }, true)

/-- `KNLoadFromOverlay_Raw`. -/
def knLoadFromOverlayRaw (granted : CString → Bool) (gZip : Option Nat) : Finder Archive :=
  fun path blocks =>
    match gZip with
    | none => .ok (blocks, none)
    | some zip => zipExtractFileToHeap granted zip path blocks

/-- `KNLoadFromOverlay`. -/
def knLoadFromOverlay (stack : (n : Nat) → Fin n → UInt8) (granted : CString → Bool)
    (gZip : Option Nat) : Finder Archive :=
  findOrMp3 stack (knLoadFromOverlayRaw granted gZip)

/-- `KNResMan_load`; `own` is what the game's function does. -/
def knResManLoad (stack : (n : Nat) → Fin n → UInt8) (granted : CString → Bool) (own : Loaded)
    (path : CString) (s : OverlayState) : Fallible (OverlayState × Loaded) := do
  let (blocks, buffer) ← knLoadFromOverlay stack granted s.gZip path s.blocks
  let (blocks, loaded) ← writeOrOwn own blocks buffer
  return ({ s with blocks := blocks }, loaded)

/-- `knMountOverlay`. -/
def knMountOverlay (numerals : Numerals) (granted : Bool) (opens : CString → Option Archive)
    (args : List Value) (s : OverlayState) : Fallible (OverlayState × List Value) :=
  match args with
  | [] => .ok (s, [])
  | path :: _ =>
      match path.toCString numerals with
      | none => .ok (s, [])
      | some path => do
          let (s, status) ← knOverlayMount granted opens path s
          return (s, [.boolean status])

/-- `knUnmountOverlay`. -/
def knUnmountOverlay (s : OverlayState) : Fallible (OverlayState × List Value) := do
  let (s, status) ← knOverlayUnmount s
  return (s, [.boolean status])

/-- `knSetPlayerZeroState`, with a `ptrdiff_t` of `w` bits. -/
def knSetPlayerZeroState (numerals : Numerals) (w : Nat) (args : List Value) (s : OverlayState) :
    OverlayState :=
  { s with zrBalls := luaToInt numerals w args 1, zrStreak := luaToInt numerals w args 2 }

/-- What a script or the game does. -/
inductive OverlayCall where
  | mount (args : List Value) (granted : Bool) (opens : CString → Option Archive)
  | unmount
  | load (path : CString) (stack : (n : Nat) → Fin n → UInt8) (granted : CString → Bool)
      (own : Loaded)
  | setPlayerZeroState (args : List Value)
  -- the game zeroes its player
  | playerZero

/-- What comes back. -/
inductive OverlayAnswer where
  | pushed (results : List Value)
  | loaded (asset : Loaded)
  | player (balls streak : BitVec 32)
  deriving DecidableEq

def overlayStep (numerals : Numerals) (w : Nat) (s : OverlayState) :
    OverlayCall → Fallible (OverlayState × OverlayAnswer)
  | .mount args granted opens => do
      let (s, results) ← knMountOverlay numerals granted opens args s
      return (s, .pushed results)
  | .unmount => do
      let (s, results) ← knUnmountOverlay s
      return (s, .pushed results)
  | .load path stack granted own => do
      let (s, asset) ← knResManLoad stack granted own path s
      return (s, .loaded asset)
  | .setPlayerZeroState args => .ok (knSetPlayerZeroState numerals w args s, .pushed [])
  -- `KNPlayer_zero`
  | .playerZero => .ok (s, .player s.zrBalls s.zrStreak)

def overlayMachine (numerals : Numerals) (w : Nat) :
    Machine OverlayState OverlayCall OverlayAnswer where
  init := ⟨none, [], 25, 0⟩
  step := overlayStep numerals w

/-! ## What it is for -/

/-- The archive that is mounted, and a player at the start. -/
structure Overlay where
  mounted : Option Archive
  balls : BitVec 32
  streak : BitVec 32

/-- What there is in the mounted archive, and in memory that is granted. -/
def Overlay.source (o : Overlay) (granted : CString → Bool) (path : CString) : Option Bytes :=
  match o.mounted with
  | none => none
  | some archive => if granted path then archive.file path else none

/-- What a mount leaves mounted; a mounted archive stays, and then the mount has failed. -/
def Overlay.mount (o : Overlay) (granted : Bool) (opened : Option Archive) : Overlay × Bool :=
  match o.mounted, granted, opened with
  | none, true, some archive => ({ o with mounted := some archive }, true)
  | _, _, _ => (o, false)

def overlaySpec (numerals : Numerals) (w : Nat) : Spec Overlay OverlayCall OverlayAnswer where
  init := ⟨none, 25, 0⟩
  step := fun o call =>
    match call with
    | .mount args granted opens =>
        match args.head?.bind (Value.toCString numerals) with
        | none => (o, .pushed [])
        | some path =>
            ((o.mount granted (opens path)).1, .pushed [.boolean (o.mount granted (opens path)).2])
    | .unmount => ({ o with mounted := none }, .pushed [.boolean o.mounted.isSome])
    | .load path _ granted own => (o, .loaded (layer (o.source granted) own path))
    | .setPlayerZeroState args =>
        ({ o with balls := luaToInt numerals w args 1, streak := luaToInt numerals w args 2 },
          .pushed [])
    | .playerZero => (o, .player o.balls o.streak)

/-- The state of the library for an overlay: of all blocks only the reader is there. -/
structure Represents (s : OverlayState) (o : Overlay) : Prop where
  unmounted : o.mounted = none → s.gZip = none ∧ s.blocks.live = fun _ => none
  mounted : ∀ archive, o.mounted = some archive → ∃ zip, s.gZip = some zip ∧
    s.blocks.live = Function.update (fun _ => none) zip (some (.reader (some archive)))
  balls : s.zrBalls = o.balls
  streak : s.zrStreak = o.streak

/-! ## Each call -/

variable {s : OverlayState} {o : Overlay} {numerals : Numerals} {w : Nat}

/-- The block behind `gZip` is the reader. -/
theorem Represents.deref (h : Represents s o) {archive : Archive}
    (hmounted : o.mounted = some archive) :
    ∃ zip, s.gZip = some zip ∧ s.blocks.live zip = some (.reader (some archive)) := by
  rcases h.mounted archive hmounted with ⟨zip, hzip, hlive⟩
  exact ⟨zip, hzip, by rw [hlive, Function.update_self]⟩

/-- The overlay finds what is in its archive. -/
theorem Represents.finds (h : Represents s o) (granted : CString → Bool) :
    Finds (knLoadFromOverlayRaw granted s.gZip) (o.source granted) s.blocks := by
  intro path
  cases hmounted : o.mounted with
  | none =>
      simp only [(h.unmounted hmounted).1, knLoadFromOverlayRaw, Overlay.source, hmounted]
  | some archive =>
      rcases h.deref hmounted with ⟨zip, hzip, hlive⟩
      simp only [hzip, knLoadFromOverlayRaw, zipExtractFileToHeap, Ledger.deref_of_live hlive,
        Fallible.ok_bind, Overlay.source, hmounted]
      cases archive.file path <;> cases granted path <;> rfl

/-- The hook answers from the layers, and its buffer is freed. -/
theorem knResManLoad_layered (h : Represents s o) (stack : (n : Nat) → Fin n → UInt8)
    (granted : CString → Bool) (own : Loaded) (path : CString) :
    ∃ s', knResManLoad stack granted own path s = .ok (s', layer (o.source granted) own path) ∧
      Represents s' o := by
  rcases find_writeOrOwn (h.finds granted) own stack path with ⟨blocks, hrun, hlive⟩
  refine ⟨{ s with blocks := blocks }, ?_, ?_⟩
  · rcases Fallible.bind_eq_ok.mp hrun with ⟨⟨blocks₁, buffer⟩, hfind, hwrite⟩
    simp only [knResManLoad, knLoadFromOverlay, hfind, Fallible.ok_bind, hwrite]
    rfl
  · exact ⟨fun hnone => ⟨(h.unmounted hnone).1, hlive.trans (h.unmounted hnone).2⟩,
      fun archive hsome => by
        rcases h.mounted archive hsome with ⟨zip, hzip, hreader⟩
        exact ⟨zip, hzip, hlive.trans hreader⟩,
      h.balls, h.streak⟩

/-- A reader that could not be opened is given back. -/
theorem knOverlayMount_represents (h : Represents s o) (granted : Bool)
    (opens : CString → Option Archive) (path : CString) :
    ∃ s', knOverlayMount granted opens path s = .ok (s', (o.mount granted (opens path)).2) ∧
      Represents s' (o.mount granted (opens path)).1 := by
  cases hmounted : o.mounted with
  | some archive =>
      rcases h.deref hmounted with ⟨zip, hzip, _⟩
      have hkept : o.mount granted (opens path) = (o, false) := by simp [Overlay.mount, hmounted]
      rw [hkept]
      refine ⟨s, ?_, h⟩
      rw [knOverlayMount, if_pos (by rw [hzip]; exact Option.some_ne_none zip)]
  | none =>
      rcases h.unmounted hmounted with ⟨hzip, hnothing⟩
      have hfirst : ¬ s.gZip ≠ none := fun hne => hne hzip
      cases granted with
      | false =>
          refine ⟨s, ?_, by simpa [Overlay.mount, hmounted] using h⟩
          rw [knOverlayMount, if_neg hfirst]
          simp [Overlay.mount, hmounted]
      | true =>
          have hreader : (s.blocks.alloc (.reader none)).1.live s.blocks.length =
              some (.reader none) := by simp
          cases hopens : opens path with
          | none =>
              rcases Ledger.free_alloc s.blocks (.reader none) with ⟨blocks, hfree, hlive⟩
              refine ⟨{ s with gZip := none, blocks := blocks }, ?_, ?_⟩
              · rw [knOverlayMount, if_neg hfirst]
                simp only [Ledger.alloc] at hreader hfree ⊢
                simp [zipReaderInitFile, Ledger.deref_of_live hreader, hopens, hfree, Overlay.mount,
                  hmounted]
              · simp only [Overlay.mount, hmounted]
                exact ⟨fun _ => ⟨rfl, hlive.trans hnothing⟩,
                  fun archive hsome => absurd (hmounted.symm.trans hsome) (by simp),
                  h.balls, h.streak⟩
          | some archive =>
              rcases Ledger.store_of_live hreader (.reader (some archive)) with
                ⟨blocks, hstore, hlive⟩
              refine ⟨{ s with gZip := some s.blocks.length, blocks := blocks }, ?_, ?_⟩
              · rw [knOverlayMount, if_neg hfirst]
                simp only [Ledger.alloc] at hreader hstore ⊢
                simp [zipReaderInitFile, Ledger.deref_of_live hreader, hopens, hstore, Overlay.mount,
                  hmounted]
              · simp only [Overlay.mount, hmounted]
                refine ⟨fun hnone => (by cases hnone), fun archive' hsome => ?_, h.balls, h.streak⟩
                cases hsome
                refine ⟨s.blocks.length, rfl, ?_⟩
                rw [hlive, Ledger.live_alloc, Function.update_idem, hnothing]

/-- The reader is ended and its block is freed. -/
theorem knOverlayUnmount_represents (h : Represents s o) :
    ∃ s', knOverlayUnmount s = .ok (s', o.mounted.isSome) ∧
      Represents s' { o with mounted := none } := by
  cases hmounted : o.mounted with
  | none =>
      rcases h.unmounted hmounted with ⟨hzip, hnothing⟩
      refine ⟨s, ?_, fun _ => ⟨hzip, hnothing⟩, fun archive hsome => (by cases hsome), h.balls,
        h.streak⟩
      simp only [knOverlayUnmount, hzip]
      rfl
  | some archive =>
      rcases h.mounted archive hmounted with ⟨zip, hzip, hlive⟩
      have hreader : s.blocks.live zip = some (.reader (some archive)) := by
        rw [hlive, Function.update_self]
      rcases Ledger.store_of_live hreader (.reader none) with ⟨ended, hend, hended⟩
      have hclosed : ended.live zip = some (.reader none) := by rw [hended, Function.update_self]
      rcases Ledger.free_of_live hclosed with ⟨blocks, hfree, hfreed⟩
      refine ⟨{ s with gZip := none, blocks := blocks }, ?_, fun _ => ⟨rfl, ?_⟩,
        fun archive hsome => (by cases hsome), h.balls, h.streak⟩
      · simp only [knOverlayUnmount, hzip, zipReaderEnd, Ledger.deref_of_live hreader,
          Fallible.ok_bind, hend, hfree]
        rfl
      · rw [hfreed, hended, hlive, Function.update_idem, Function.update_idem]
        exact Function.update_eq_self zip _

/-! ## Runs -/

theorem overlayStep_represents (numerals : Numerals) (w : Nat) (s : OverlayState) (o : Overlay)
    (call : OverlayCall) (h : Represents s o) :
    ∃ s', overlayStep numerals w s call = .ok (s', ((overlaySpec numerals w).step o call).2) ∧
      Represents s' ((overlaySpec numerals w).step o call).1 := by
  cases call with
  | mount args granted opens =>
      cases args with
      | nil => exact ⟨s, rfl, h⟩
      | cons path args =>
          cases hpath : path.toCString numerals with
          | none =>
              refine ⟨s, ?_, by simpa [overlaySpec, hpath] using h⟩
              simp [overlayStep, knMountOverlay, overlaySpec, hpath]
          | some path =>
              rcases knOverlayMount_represents h granted opens path with ⟨s', hrun, h'⟩
              refine ⟨s', ?_, by simpa [overlaySpec, hpath] using h'⟩
              simp [overlayStep, knMountOverlay, overlaySpec, hpath, hrun]
  | unmount =>
      rcases knOverlayUnmount_represents h with ⟨s', hrun, h'⟩
      refine ⟨s', ?_, h'⟩
      simp [overlayStep, knUnmountOverlay, overlaySpec, hrun]
  | load path stack granted own =>
      rcases knResManLoad_layered h stack granted own path with ⟨s', hrun, h'⟩
      refine ⟨s', ?_, h'⟩
      simp [overlayStep, overlaySpec, hrun]
  | setPlayerZeroState args => exact ⟨_, rfl, h.unmounted, h.mounted, rfl, rfl⟩
  | playerZero =>
      refine ⟨s, ?_, h⟩
      simp [overlayStep, overlaySpec, h.balls, h.streak]

/-- Whatever is mounted, unmounted and loaded, and whatever memory is refused: nothing faults, an
asset comes from the mounted archive, or from there with `.mp3`, or else from the game, and the only
block that is there is the reader of the archive, while one is mounted. -/
theorem overlay_answers (numerals : Numerals) (w : Nat) (calls : List OverlayCall) :
    ∃ s, (overlayMachine numerals w).run calls =
        .ok (s, (overlaySpec numerals w).answers (overlaySpec numerals w).init calls) ∧
      Represents s ((overlaySpec numerals w).final (overlaySpec numerals w).init calls) := by
  have hinit : Represents (overlayMachine numerals w).init (overlaySpec numerals w).init :=
    ⟨fun _ => ⟨rfl, rfl⟩, fun archive hsome => (by cases hsome), rfl, rfl⟩
  exact Machine.runFrom_refines (G := fun _ _ => True)
    (fun s o call h _ => overlayStep_represents numerals w s o call h) calls _ _ hinit
    (Spec.admits_of_forall _ calls _ (fun _ _ => trivial))

end Assets
end KnShim
