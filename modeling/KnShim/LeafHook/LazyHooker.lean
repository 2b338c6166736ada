import KnShim.LeafHook.StubArea
import KnShim.Lib.Machine

/-!
# LazyHooker — `KNHookFunction`, which creates the hooker when it first needs it

The modules of the library hook functions one after the other through `KNHookFunction`.  It creates
one hooker for all of them, and tries again with the next call where that failed.

`hooks_lazy` says that a run is the calls that failed, which change nothing, and then the run of a
hooker that was there from the start; so whatever holds of the latter holds of what
`KNHookFunction` does.
-/

namespace KnShim
namespace LeafHook

open Lib

variable {w pageSize : Nat}

/-- What `malloc` and `mmap` do, should a call create the hooker. -/
structure Resources (w pageSize : Nat) where
  malloc : Bool
  mmap : Option (Mapping w (10 * pageSize))

/-- `gHooker`, the memory, and the stubs so far. -/
structure Shim (w : Nat) where
  gHooker : Option (Hooker w)
  mem : Memory w
  stubs : List (Stub w)

/-- `KNHookInit`. -/
def knHookInit (self : Shim w) (r : Resources w pageSize) : Bool × Shim w :=
  let created := hookerCreate r.malloc pageSize r.mmap
  (created.isSome, { self with gHooker := created })

/-- The rest of `KNHookFunction`; `gHooker` is dereferenced. -/
def hookWithHooker (arch : Arch w) (self : Shim w) (req : Install w) : Fallible (Bool × Shim w) :=
  match self.gHooker with
  | none => .error .nullDeref
  | some hooker => do
      let (success, t) ← install arch ⟨hooker, self.mem, self.stubs⟩ req
      return (success, ⟨some t.hooker, t.mem, t.stubs⟩)

/-- `KNHookFunction`. -/
def knHookFunction (arch : Arch w) (self : Shim w) (r : Resources w pageSize) (req : Install w) :
    Fallible (Bool × Shim w) :=
  match self.gHooker with
  | none =>
      let (success, self) := knHookInit self r
      if success then hookWithHooker arch self req else .ok (false, self)
  | some _ => hookWithHooker arch self req

/-- The library from its start, hooking functions. -/
def hookMachine (arch : Arch w) (pageSize : Nat) (mem : Memory w) :
    Machine (Shim w) (Resources w pageSize × Install w) Bool where
  init := ⟨none, mem, []⟩
  step := fun s call => do
    let (success, s) ← knHookFunction arch s call.1 call.2
    return (s, success)

variable {arch : Arch w} {mem : Memory w}

/-- The state of the library when its hooker is there. -/
def Installed.shim (t : Installed w) : Shim w := ⟨some t.hooker, t.mem, t.stubs⟩

/-- With a hooker, a call is a call of the hooker, and it succeeds or faults. -/
theorem hookMachine_step (arch : Arch w) (mem : Memory w) (t : Installed w)
    (r : Resources w pageSize) (req : Install w) :
    (hookMachine arch pageSize mem).step t.shim (r, req) =
      (install arch t req).map fun u => (u.2.shim, true) := by
  have hcall : (hookMachine arch pageSize mem).step t.shim (r, req) =
      (install arch t req >>= fun u => .ok (u.2.shim, u.1)) := by
    change (knHookFunction arch t.shim r req >>= _) = _
    simp only [knHookFunction, Installed.shim, hookWithHooker]
    cases install arch t req <;> rfl
  rw [hcall]
  cases hrun : install arch t req with
  | error e => rfl
  | ok u =>
      rcases u with ⟨success, u⟩
      rw [install_success hrun]
      rfl

/-- With a hooker, a run is a run of the hooker. -/
theorem hookMachine_runFrom (calls : List (Resources w pageSize × Install w)) (t : Installed w) :
    (hookMachine arch pageSize mem).runFrom t.shim calls =
      (installAll arch t (calls.map Prod.snd)).map fun u =>
        (u.shim, List.replicate calls.length true) := by
  induction calls generalizing t with
  | nil => rfl
  | cons call calls ih =>
      rcases call with ⟨r, req⟩
      have hstep := hookMachine_step arch mem t r req
      rw [List.map_cons, installAll]
      cases hrun : install arch t req with
      | error e =>
          rw [hrun] at hstep
          simp only [Machine.runFrom, hstep]
          rfl
      | ok u =>
          rcases u with ⟨success, u⟩
          rw [hrun] at hstep
          rw [Machine.runFrom_cons calls hstep, ih]
          change _ = (installAll arch u (calls.map Prod.snd)).map _
          cases installAll arch u (calls.map Prod.snd) <;> rfl

/-- The first call that gets its memory creates the hooker, and goes on as if it had been there. -/
theorem hookMachine_created (arch : Arch w) (mem : Memory w) {r : Resources w pageSize}
    (hmalloc : r.malloc = true) (req : Install w) :
    ∃ created, hookerCreate r.malloc pageSize r.mmap = some created ∧
      (hookMachine arch pageSize mem).step ⟨none, mem, []⟩ (r, req) =
        (hookMachine arch pageSize mem).step (Installed.shim ⟨created, mem, []⟩) (r, req) := by
  have hsome : (hookerCreate r.malloc pageSize r.mmap).isSome = true := by
    unfold hookerCreate
    rw [if_pos hmalloc]
    cases r.mmap with
    | none => rfl
    | some block => simp only [if_neg block.nonnull, Option.isSome_some]
  rcases Option.isSome_iff_exists.mp hsome with ⟨created, hcreated⟩
  refine ⟨created, hcreated, ?_⟩
  change (knHookFunction arch _ r req >>= _) = (knHookFunction arch _ r req >>= _)
  simp only [knHookFunction, knHookInit, hcreated, Option.isSome_some, if_true, Installed.shim]

theorem hookMachine_failed (arch : Arch w) (mem : Memory w) {r : Resources w pageSize}
    (hmalloc : r.malloc = false) (req : Install w) :
    (hookMachine arch pageSize mem).step ⟨none, mem, []⟩ (r, req) = .ok (⟨none, mem, []⟩, false) := by
  have hnone : hookerCreate r.malloc pageSize r.mmap = none := by
    unfold hookerCreate
    rw [hmalloc]
    rfl
  change (knHookFunction arch _ r req >>= _) = _
  simp only [knHookFunction, knHookInit, hnone, Option.isSome_none, Bool.false_eq_true, if_false]
  rfl

/-- A run of `KNHookFunction` on any resources: calls that fail and change nothing, and then exactly
what a hooker does that was created before them. -/
theorem hooks_lazy (arch : Arch w) (pageSize : Nat) (mem : Memory w)
    (calls : List (Resources w pageSize × Install w)) :
    ((∀ c ∈ calls, c.1.malloc = false) ∧ (hookMachine arch pageSize mem).run calls =
      .ok (⟨none, mem, []⟩, List.replicate calls.length false)) ∨
    ∃ early r req late created, calls = early ++ (r, req) :: late ∧
      (∀ c ∈ early, c.1.malloc = false) ∧
      hookerCreate r.malloc pageSize r.mmap = some created ∧
      (hookMachine arch pageSize mem).run calls =
        (installAll arch ⟨created, mem, []⟩ (req :: late.map Prod.snd)).map fun t =>
          (t.shim, List.replicate early.length false ++ List.replicate (late.length + 1) true) := by
  induction calls with
  | nil => exact Or.inl ⟨by simp, rfl⟩
  | cons call calls ih =>
      rcases call with ⟨r, req⟩
      cases hmalloc : r.malloc with
      | true =>
          -- from here on the hooker is there
          right
          rcases hookMachine_created arch mem hmalloc req with
            ⟨created, hcreated, hstep⟩
          refine ⟨[], r, req, calls, created, rfl, by simp, hcreated, ?_⟩
          have hsame : (hookMachine arch pageSize mem).run ((r, req) :: calls) =
              (hookMachine arch pageSize mem).runFrom (Installed.shim ⟨created, mem, []⟩)
                ((r, req) :: calls) := by
            simp only [Machine.run, Machine.runFrom]
            exact congrArg (· >>= _) hstep
          rw [hsame, hookMachine_runFrom]
          rfl
      | false =>
          have hstep := hookMachine_failed arch mem hmalloc req
          have hrun : (hookMachine arch pageSize mem).run ((r, req) :: calls) =
              ((hookMachine arch pageSize mem).run calls >>= fun t => .ok (t.1, false :: t.2)) :=
            Machine.runFrom_cons calls hstep
          rcases ih with ⟨hall, hnone⟩ |
            ⟨early, r', req', late, created, rfl, hearly, hcreated, hlate⟩
          · left
            refine ⟨?_, ?_⟩
            · intro c hc
              rcases List.mem_cons.mp hc with rfl | hc
              · exact hmalloc
              · exact hall c hc
            · rw [hrun, hnone]
              rfl
          · right
            refine ⟨(r, req) :: early, r', req', late, created, rfl, ?_, hcreated, ?_⟩
            · intro c hc
              rcases List.mem_cons.mp hc with rfl | hc
              · exact hmalloc
              · exact hearly c hc
            · rw [hrun, hlate]
              cases installAll arch ⟨created, mem, []⟩ (req' :: late.map Prod.snd) <;> rfl

end LeafHook
end KnShim
