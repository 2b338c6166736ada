import KnShim.LeafHook.AArch32
import KnShim.LeafHook.AArch64

/-!
# LeafHook.Hook — installing hooks

`LHHookerCreate`, the long jumps and `LHHookerHookFunction`.  The two architectures differ in the
size of the block that is moved, in the rewriter and in the long jump; `Arch` has these three.  What
is stored to `*orig` is part of the result, and `Installed` is the state after a sequence of calls,
with the stubs that were handed out.

Memory can be read and written everywhere, with two exceptions: a stub that is copied to `NULL`, or
to a block that was never mapped, is a fault.
-/

namespace KnShim
namespace LeafHook

open Lib

variable {w : Nat}

/-! ## Long jumps -/

/-- `LHWriteAArch64LongJump`. -/
def writeAArch64LongJump (mem : Memory 64) (code target : BitVec 64) : Memory 64 :=
  let mem := mem.store32 (wordAddr code 0) (makeAarch64LdrLiteral 1 (8#32 >>> 2) 16)
  let mem := mem.store32 (wordAddr code 1) (makeAarch64Br 16)
  let mem := mem.store32 (wordAddr code 2) (target.extractLsb' 0 32)
  mem.store32 (wordAddr code 3) (target.extractLsb' 32 32)

/-- `LHWriteAArch32LongJump`. -/
def writeAArch32LongJump (mem : Memory 32) (code target : BitVec 32) : Memory 32 :=
  let mem := mem.store32 (wordAddr code 0) (makeAarch32LdrLiteral 1 12 0)
  let mem := mem.store32 (wordAddr code 1) (makeAarch32Bx 12)
  mem.store32 (wordAddr code 2) target

/-- What the build selects. -/
structure Arch (w : Nat) where
  blockSize : Nat
  rewriteBlock : LHHooker w → Memory w → BitVec w → Nat → Rewritten w
  writeLongJump : Memory w → BitVec w → BitVec w → Memory w

/-- `LH_AARCH64`. -/
def aarch64 : Arch 64 := ⟨4, rewriteAArch64Block, writeAArch64LongJump⟩

/-- `LH_AARCH32`. -/
def aarch32 : Arch 32 := ⟨3, rewriteAArch32Block, writeAArch32LongJump⟩

/-- The architecture of each target. -/
def archOf : (target : Target) → Arch target.wordBits
  | .aarch64 => aarch64
  | .armv7 => aarch32

/-! ## The hooker -/

/-- What `mmap` returns for a size when it succeeds: pages, not at `NULL`, and not around the end of
the memory. -/
structure Mapping (w size : Nat) where
  addr : BitVec w
  aligned : addr.toNat % 4 = 0
  nonnull : addr ≠ 0
  fits : addr.toNat + size < 2 ^ w

/-- A hooker as `LHHookerCreate` leaves it.  `MAP_FAILED` is not `NULL`, so a mapping that failed
leaves a hooker all the same; its block is mapped nowhere. -/
inductive Hooker (w : Nat) where
  | mapped (self : LHHooker w)
  | mapFailed

/-- `LHHookerCreate`, given what `malloc` and `mmap` do. -/
def hookerCreate (malloc : Bool) (pageSize : Nat) (mmap : Option (Mapping w (10 * pageSize))) :
    Option (Hooker w) :=
  if malloc then
    match mmap with
    | none => some .mapFailed
    | some block =>
        if block.addr = 0 then none
        else some (.mapped ⟨block.addr, 10 * pageSize, 0, block.aligned, rfl⟩)
  else
    none

namespace Hooker

/-- `rwx_block_used`. -/
def rwxBlockUsed : Hooker w → Nat
  | .mapped self => self.rwxBlockUsed
  | .mapFailed => 0

/-- The rewriting of a block; the copy of the stub is where it can fault. -/
def rewriteBlock (arch : Arch w) (self : Hooker w) (mem : Memory w) (oldBlock : BitVec w) :
    Fallible (Rewritten w) :=
  match self with
  | .mapFailed => .error .outOfBounds
  | .mapped self =>
      let r := arch.rewriteBlock self mem oldBlock arch.blockSize
      if r.newBlock = 0 then .error .nullDeref else .ok r

end Hooker

/-! ## Hooking a function -/

/-- What a call leaves behind; `orig` is what was stored to `*orig`. -/
structure Hooked (w : Nat) where
  success : Bool
  orig : Option (BitVec w)
  hooker : Hooker w
  mem : Memory w

/-- `LHHookerHookFunction`, with `LHHookerAArch64Function` or `LHHookerAArch32Function`; `orig` says
whether the pointer was passed. -/
def hookerHookFunction (arch : Arch w) (self : Hooker w) (mem : Memory w) (function hook : BitVec w)
    (orig : Bool) : Fallible (Hooked w) :=
  if orig then do
    let r ← self.rewriteBlock arch mem function
    if r.newBlock = 0 then
      return ⟨false, none, .mapped r.hooker, r.mem⟩
    else
      return ⟨true, some r.newBlock, .mapped r.hooker, arch.writeLongJump r.mem function hook⟩
  else
    return ⟨true, none, self, arch.writeLongJump mem function hook⟩

/-- A call of `LHHookerHookFunction`. -/
structure Install (w : Nat) where
  function : BitVec w
  hook : BitVec w
  orig : Bool

/-- Memory that was handed out for a stub. -/
structure Stub (w : Nat) where
  base : BitVec w
  size : Nat
  deriving DecidableEq

/-- The state after some calls, with the stubs in order. -/
structure Installed (w : Nat) where
  hooker : Hooker w
  mem : Memory w
  stubs : List (Stub w)

/-- One call.  The size of a stub is what its allocation added to `rwx_block_used`. -/
def install (arch : Arch w) (s : Installed w) (req : Install w) : Fallible (Bool × Installed w) := do
  let h ← hookerHookFunction arch s.hooker s.mem req.function req.hook req.orig
  let stub := h.orig.map fun base => ⟨base, h.hooker.rwxBlockUsed - s.hooker.rwxBlockUsed⟩
  return (h.success, ⟨h.hooker, h.mem, s.stubs ++ stub.toList⟩)

/-- A sequence of calls. -/
def installAll (arch : Arch w) (s : Installed w) : List (Install w) → Fallible (Installed w)
  | [] => return s
  | req :: reqs => do
      let (_, s) ← install arch s req
      installAll arch s reqs

/-- No call fails: the pointer that is tested for `NULL` has been written through before. -/
theorem hookerHookFunction_success {arch : Arch w} {self : Hooker w} {mem : Memory w}
    {function hook : BitVec w} {orig : Bool} {h : Hooked w}
    (hrun : hookerHookFunction arch self mem function hook orig = .ok h) : h.success = true := by
  rw [hookerHookFunction] at hrun
  cases orig with
  | false =>
      cases hrun
      rfl
  | true =>
      rw [if_pos rfl, Fallible.bind_eq_ok] at hrun
      rcases hrun with ⟨r, hrewrite, hrest⟩
      cases self with
      | mapFailed => cases hrewrite
      | mapped self =>
          rw [Hooker.rewriteBlock] at hrewrite
          split at hrewrite
          · cases hrewrite
          · rename_i hnonnull
            cases hrewrite
            rw [if_neg hnonnull] at hrest
            cases hrest
            rfl

theorem install_success {arch : Arch w} {s t : Installed w} {req : Install w} {success : Bool}
    (hrun : install arch s req = .ok (success, t)) : success = true := by
  rw [install, Fallible.bind_eq_ok] at hrun
  rcases hrun with ⟨h, hhook, hrest⟩
  cases hrest
  exact hookerHookFunction_success hhook

end LeafHook
end KnShim
