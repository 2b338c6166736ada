import KnShim.Lib.CString
import KnShim.Lib.Ledger

/-!
# Assets.Layers — a source of assets in front of the game's own

Two builds hook `ResMan::load`: the one for ciphered assets (`ResManLoadHook`) and the one for
overlays (`KNResMan_load`).  Both ask their source for the path, then for the path with `.mp3`
behind it, and let the game load the asset when neither is there.  The second path is put together in
an array on the stack, and what the source hands over is a block that the hook gives back.

`Layered` says what comes out.  The hooks do that (`knResManLoad_layered`, in `Overlay`, and
`resManLoadHook_layered`) and leave no block behind.
-/

namespace KnShim
namespace Assets

open Lib

/-! ## The second path -/

/-- What the game's own `ResMan::load` returns, and what it puts into the stream. -/
structure Loaded where
  result : Bool
  output : Bytes
  deriving DecidableEq

def mp3 : CString := CString.literal ".mp3"

/-- `path_mp3`, in an array of `strlen(path) + 5` bytes; `stack` is what was there. -/
def pathMp3 (stack : (n : Nat) → Fin n → UInt8) (path : CString) : Fallible CString := do
  let array ← CString.store (List.ofFn (stack (path.length + 5))) 0 path
  let dest ← CString.read array
  let array ← CString.store array dest.length mp3
  CString.read array

/-- The array is large enough. -/
theorem pathMp3_eq (stack : (n : Nat) → Fin n → UInt8) (path : CString) :
    pathMp3 stack path = .ok (path.append mp3) := by
  have hsize : (List.ofFn (stack (path.length + 5))).length = path.length + 5 := List.length_ofFn
  have hmp3 : mp3.length = 4 := by decide
  have hroom : path.length + 1 ≤ (List.ofFn (stack (path.length + 5))).length := by omega
  rcases CString.store_zero path hroom with ⟨array, hcopy, hstarts, hlength⟩
  rcases CString.store_append (t := mp3) hstarts (by omega) with ⟨array', hcat, hstarts', _⟩
  simp only [pathMp3, hcopy, CString.read_of_starts hstarts, hcat, Fallible.ok_bind,
    CString.read_of_starts hstarts']

/-! ## The layers -/

/-- What a source has for a path, or for the path with `.mp3`. -/
def Layered (source : CString → Option Bytes) (path : CString) : Option Bytes :=
  match source path with
  | some content => some content
  | none => source (path.append mp3)

/-- What the game gets: from the source, or else its own. -/
def layer (source : CString → Option Bytes) (own : Loaded) (path : CString) : Loaded :=
  match Layered source path with
  | some content => ⟨true, content⟩
  | none => own

/-- What a block holds that a hook has to do with: a ZIP reader, with what it reads, or an asset. -/
inductive Block (α : Type) where
  | reader (archive : Option α)
  | asset (content : Bytes)

variable {α : Type}

/-- A function that looks for an asset, and hands over a block that it has taken. -/
abbrev Finder (α : Type) : Type :=
  CString → Ledger (Block α) → Fallible (Ledger (Block α) × Option Nat)

/-- The path, and then the path with `.mp3`. -/
def findOrMp3 (stack : (n : Nat) → Fin n → UInt8) (find : Finder α) : Finder α :=
  fun path blocks => do
    let (blocks, buffer) ← find path blocks
    match buffer with
    | some buffer => return (blocks, some buffer)
    | none => do
        let path ← pathMp3 stack path
        find path blocks

/-- Write the asset into the stream and free its block, or let the game load its own. -/
def writeOrOwn (own : Loaded) (blocks : Ledger (Block α)) :
    Option Nat → Fallible (Ledger (Block α) × Loaded)
  | none => .ok (blocks, own)
  | some buffer => do
      match ← blocks.deref buffer with
      | .reader _ => .error .uninitialized
      | .asset content => do
          let blocks ← blocks.free buffer
          return (blocks, ⟨true, content⟩)

/-- What `find` has to do: hand over a new block with what `source` has, or nothing. -/
def Finds (find : Finder α) (source : CString → Option Bytes) (blocks : Ledger (Block α)) : Prop :=
  ∀ path, find path blocks = .ok (match source path with
    | some content => ((blocks.alloc (.asset content)).1, some blocks.length)
    | none => (blocks, none))

variable {find : Finder α} {source : CString → Option Bytes} {blocks : Ledger (Block α)}

theorem findOrMp3_finds (h : Finds find source blocks) (stack : (n : Nat) → Fin n → UInt8) :
    Finds (findOrMp3 stack find) (Layered source) blocks := by
  intro path
  rw [findOrMp3, h path, Layered]
  cases hfirst : source path with
  | some content => rfl
  | none =>
      simp only [Fallible.ok_bind, pathMp3_eq]
      exact h (path.append mp3)

/-- A hook that finds its asset, writes it and frees it answers as the layers do, and leaves no
block behind. -/
theorem find_writeOrOwn (h : Finds find source blocks) (own : Loaded)
    (stack : (n : Nat) → Fin n → UInt8) (path : CString) :
    ∃ blocks', (findOrMp3 stack find path blocks >>= fun r => writeOrOwn own r.1 r.2) =
        .ok (blocks', layer source own path) ∧ blocks'.live = blocks.live := by
  rw [findOrMp3_finds h stack path, layer]
  cases hfound : Layered source path with
  | none => exact ⟨blocks, rfl, rfl⟩
  | some content =>
      rcases Ledger.free_alloc blocks (.asset content) with ⟨blocks', hfree, hlive⟩
      refine ⟨blocks', ?_, hlive⟩
      have hderef : (blocks.alloc (.asset content)).1.deref blocks.length = .ok (.asset content) :=
        Ledger.deref_of_live (by simp)
      simp only [Fallible.ok_bind, writeOrOwn, hderef, hfree]
      rfl

/-! ## Ciphered assets -/

/-- `cstr_starts_with`. -/
def cstrStartsWith (str start : CString) : Bool := start.bytes.isPrefixOf str.bytes

/-- The paths that the hook leaves to the game; `encryptAll` is `CIPHER_ENCRYPT_ALL`. -/
def leftToGame (encryptAll : Bool) (path : CString) : Bool :=
  if encryptAll then
    cstrStartsWith path (CString.literal "user://") ||
      cstrStartsWith path (CString.literal "http://")
  else
    !cstrStartsWith path (CString.literal "levels/") &&
      !cstrStartsWith path (CString.literal "rooms/") &&
      !cstrStartsWith path (CString.literal "segments")

/-- `ResManLoadHook`; `loadObfuscatedAsset` is the function of this name. -/
def resManLoadHook (encryptAll : Bool) (stack : (n : Nat) → Fin n → UInt8)
    (loadObfuscatedAsset : Finder α) (own : Loaded) (path : CString) (blocks : Ledger (Block α)) :
    Fallible (Ledger (Block α) × Loaded) :=
  if leftToGame encryptAll path then .ok (blocks, own)
  else do
    let (blocks, buffer) ← findOrMp3 stack loadObfuscatedAsset path blocks
    writeOrOwn own blocks buffer

theorem resManLoadHook_layered {loadObfuscatedAsset : Finder α}
    (h : Finds loadObfuscatedAsset source blocks) (encryptAll : Bool) (own : Loaded)
    (stack : (n : Nat) → Fin n → UInt8) (path : CString) :
    ∃ blocks', resManLoadHook encryptAll stack loadObfuscatedAsset own path blocks =
        .ok (blocks', if leftToGame encryptAll path then own else layer source own path) ∧
      blocks'.live = blocks.live := by
  rw [resManLoadHook]
  by_cases hleft : leftToGame encryptAll path = true
  · rw [if_pos hleft, if_pos hleft]
    exact ⟨blocks, rfl, rfl⟩
  · rw [if_neg hleft, if_neg hleft]
    exact find_writeOrOwn h own stack path

end Assets
end KnShim
