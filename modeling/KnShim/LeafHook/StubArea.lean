import KnShim.LeafHook.HookLayout

/-!
# LeafHook.StubArea — where the stubs go

Stubs are allocated one behind the other, so they are words and apart from each other as long as the
area lasts.  Nothing ends it: `LHHookerAllocRwx` does not look at `rwx_block_size`, and
`LHHookerCreate` does not notice that there is no area.  `installsSafely_iff` says that a run is safe
exactly when each of its calls finds room.
-/

namespace KnShim
namespace LeafHook

open Lib

variable {w : Nat}

/-- The stub of the call fits into what is left of the area, and there is an area. -/
def Fits (arch : Arch w) (s : Installed w) (req : Install w) : Prop :=
  match s.hooker with
  | .mapFailed => False
  | .mapped self =>
      let r := arch.rewriteBlock self s.mem req.function arch.blockSize
      self.rwxBlockUsed + (r.hooker.rwxBlockUsed - self.rwxBlockUsed) ≤ self.rwxBlockSize

/-- The call fails and changes neither the function nor a stub. -/
def Refuses (arch : Arch w) (s : Installed w) (req : Install w) : Prop :=
  ∃ t, install arch s req = .ok (false, t) ∧
    t.mem.read req.function (4 * arch.blockSize) =
      s.mem.read req.function (4 * arch.blockSize) ∧
    ∀ stub ∈ s.stubs, t.mem.read stub.base stub.size = s.mem.read stub.base stub.size

/-- The stubs are inside the block that was mapped, at words, and apart from each other. -/
structure StubsSafe (created : Hooker w) (stubs : List (Stub w)) : Prop where
  inside : ∀ stub ∈ stubs, ∃ hooker, created = .mapped hooker ∧
    ∀ p, Memory.InRange stub.base stub.size p →
      Memory.InRange hooker.rwxBlock hooker.rwxBlockSize p
  aligned : ∀ stub ∈ stubs, stub.base.toNat % 4 = 0
  disjoint : stubs.Pairwise fun a b => Memory.Apart a.base a.size b.base b.size

/-- The run goes through with safe stubs, and a call whose stub does not fit is refused. -/
structure InstallsSafely (arch : Arch w) (created : Hooker w) (mem : Memory w)
    (reqs : List (Install w)) : Prop where
  safe : ∃ t, installAll arch ⟨created, mem, []⟩ reqs = .ok t ∧ StubsSafe created t.stubs
  refuses : ∀ before req after s, reqs = before ++ req :: after →
    installAll arch ⟨created, mem, []⟩ before = .ok s → req.orig = true → ¬ Fits arch s req →
    Refuses arch s req

/-- Every call that asks for the original finds room. -/
def AllFit (arch : Arch w) (s : Installed w) (reqs : List (Install w)) : Prop :=
  ∀ before req after t, reqs = before ++ req :: after → installAll arch s before = .ok t →
    req.orig = true → Fits arch t req

theorem AllFit.tail {arch : Arch w} {s t : Installed w} {req : Install w} {reqs : List (Install w)}
    {success : Bool} (h : AllFit arch s (req :: reqs))
    (hstep : install arch s req = .ok (success, t)) : AllFit arch t reqs := by
  intro before req' after u hreqs hrun horig
  refine h (req :: before) req' after u (by rw [hreqs, List.cons_append]) ?_ horig
  rw [installAll, hstep, Fallible.ok_bind]
  exact hrun

/-! ## The invariant -/

/-- The stubs were put one behind the other into the block. -/
structure Placed (hooker : LHHooker w) (s : Installed w) : Prop where
  mapped : ∃ now, s.hooker = .mapped now ∧ now.rwxBlock = hooker.rwxBlock ∧
    now.rwxBlockSize = hooker.rwxBlockSize
  placed : ∀ stub ∈ s.stubs, ∃ offset, stub.base = hooker.rwxBlock + BitVec.ofNat w offset ∧
    offset + stub.size ≤ s.hooker.rwxBlockUsed ∧ offset + stub.size ≤ hooker.rwxBlockSize
  aligned : ∀ stub ∈ s.stubs, stub.base.toNat % 4 = 0
  disjoint : s.stubs.Pairwise fun a b => Memory.Apart a.base a.size b.base b.size

/-- Without a block there are no stubs. -/
def Sound (created : Hooker w) (s : Installed w) : Prop :=
  match created with
  | .mapFailed => s.hooker = .mapFailed ∧ s.stubs = []
  | .mapped hooker => Placed hooker s

/-- The block does not reach around the end of the memory. -/
def Hooker.Real (created : Hooker w) : Prop :=
  match created with
  | .mapFailed => True
  | .mapped hooker => hooker.rwxBlock ≠ 0 ∧ hooker.rwxBlock.toNat + hooker.rwxBlockSize < 2 ^ w

theorem hookerCreate_real {malloc : Bool} {pageSize : Nat}
    {mmap : Option (Mapping w (10 * pageSize))} {created : Hooker w}
    (h : hookerCreate malloc pageSize mmap = some created) :
    created.Real ∧ ∀ mem, Sound created ⟨created, mem, []⟩ := by
  unfold hookerCreate at h
  cases malloc with
  | false => cases h
  | true =>
      cases mmap with
      | none =>
          cases h
          exact ⟨trivial, fun _ => ⟨rfl, rfl⟩⟩
      | some block =>
          simp only [if_true, if_neg block.nonnull] at h
          cases h
          refine ⟨⟨block.nonnull, block.fits⟩, fun mem => ?_⟩
          exact ⟨⟨_, rfl, rfl, rfl⟩, by simp, by simp, by simp⟩

section Runs

variable {arch : Arch w} {items : Memory w → BitVec w → List Item} {jump : BitVec w → List Item}
variable (hlayout : arch.Layout items jump)

theorem Sound.safe {created : Hooker w} {s : Installed w} (h : Sound created s)
    (hreal : created.Real) : StubsSafe created s.stubs := by
  cases created with
  | mapFailed =>
      rw [h.2]
      exact ⟨by simp, by simp, by simp⟩
  | mapped hooker =>
      refine ⟨fun stub hstub => ?_, h.aligned, h.disjoint⟩
      rcases h.placed stub hstub with ⟨offset, hbase, _, hsize⟩
      have hfits := hreal.2
      refine ⟨hooker, rfl, fun p hp => ?_⟩
      rw [hbase] at hp
      exact (hp.of_offset hsize (by omega)).2

include hlayout

/-- What `Fits` says of the stub that is put. -/
theorem fits_iff {s : Installed w} {self : LHHooker w} {req : Install w}
    (hs : s.hooker = .mapped self) :
    Fits arch s req ↔ self.rwxBlockUsed +
      (LiteralPool.assemble (items s.mem req.function)).length ≤ self.rwxBlockSize := by
  have hused := self.allocRwx_used (hlayout.stub_aligned s.mem req.function)
  rw [Fits, hs]
  simp only [hlayout.rewriteBlock, putStub, hused, Nat.add_sub_cancel_left]

/-- A call that finds room keeps the stubs apart. -/
theorem Sound.step {created : Hooker w} {s : Installed w} {req : Install w} (h : Sound created s)
    (hreal : created.Real) (hfits : req.orig = true → Fits arch s req) :
    ∃ t, install arch s req = .ok (true, t) ∧ Sound created t := by
  cases horig : req.orig with
  | false =>
      refine ⟨_, Arch.Layout.install_no_orig horig, ?_⟩
      cases created with
      | mapFailed => exact h
      | mapped hooker => exact ⟨h.mapped, h.placed, h.aligned, h.disjoint⟩
  | true =>
      have hroom := hfits horig
      cases created with
      | mapFailed =>
          rw [Fits, h.1] at hroom
          exact hroom.elim
      | mapped hooker =>
          rcases h.mapped with ⟨now, hs, hblock, hsize⟩
          rw [fits_iff hlayout hs, hsize] at hroom
          have hend := hreal.2
          have hnext : now.nextStub ≠ 0 := by
            rw [LHHooker.nextStub, hblock]
            exact block_add_ne hreal.1 hend (by omega)
          have hrun := hlayout.install_orig hs horig hnext
          have haligned := hlayout.stub_aligned s.mem req.function
          generalize LiteralPool.assemble (items s.mem req.function) = new at hrun hroom haligned
          refine ⟨_, hrun, ⟨⟨_, rfl, hblock, hsize⟩, ?_, ?_, ?_⟩⟩
          · intro stub hstub
            rw [Hooker.rwxBlockUsed, now.allocRwx_used haligned]
            rcases List.mem_append.mp hstub with hold | hlast
            · rcases h.placed stub hold with ⟨offset, hbase, hused, hinside⟩
              rw [hs, Hooker.rwxBlockUsed] at hused
              exact ⟨offset, hbase, by omega, hinside⟩
            · rw [List.mem_singleton] at hlast
              subst hlast
              exact ⟨now.rwxBlockUsed, by rw [LHHooker.nextStub, hblock], Nat.le_refl _, hroom⟩
          · intro stub hstub
            rcases List.mem_append.mp hstub with hold | hlast
            · exact h.aligned stub hold
            · rw [List.mem_singleton] at hlast
              subst hlast
              exact now.allocRwx_aligned new.length (by have := hlayout.width; omega)
          · refine List.pairwise_append.mpr ⟨h.disjoint, List.pairwise_singleton _ _, ?_⟩
            intro stub hold last hlast
            rw [List.mem_singleton] at hlast
            subst hlast
            -- the new stub begins where the old ones end
            rcases h.placed stub hold with ⟨offset, hbase, hused, _⟩
            rw [hs, Hooker.rwxBlockUsed] at hused
            rw [hbase, LHHooker.nextStub, hblock]
            exact Memory.apart_offsets _ hused (le_trans hroom (by omega))

theorem Sound.run {created : Hooker w} (hreal : created.Real) (reqs : List (Install w)) :
    ∀ s, Sound created s → AllFit arch s reqs →
      ∃ t, installAll arch s reqs = .ok t ∧ Sound created t := by
  induction reqs with
  | nil => exact fun s h _ => ⟨s, rfl, h⟩
  | cons req reqs ih =>
      intro s h hfit
      have hfirst : req.orig = true → Fits arch s req := hfit [] req reqs s rfl rfl
      rcases h.step hlayout hreal hfirst with ⟨t, hstep, ht⟩
      rcases ih t ht (hfit.tail hstep) with ⟨u, hrun, hu⟩
      refine ⟨u, ?_, hu⟩
      rw [installAll, hstep, Fallible.ok_bind]
      exact hrun

/-- A run is safe exactly when every call that asks for the original finds room. -/
theorem installsSafely_iff_allFit {malloc : Bool} {pageSize : Nat}
    {mmap : Option (Mapping w (10 * pageSize))} {created : Hooker w}
    (hcreate : hookerCreate malloc pageSize mmap = some created) (mem : Memory w)
    (reqs : List (Install w)) :
    InstallsSafely arch created mem reqs ↔ AllFit arch ⟨created, mem, []⟩ reqs := by
  rcases hookerCreate_real hcreate with ⟨hreal, hinit⟩
  constructor
  · intro h before req after s hreqs hrun horig
    by_contra hfits
    -- the code has no way to refuse
    rcases h.refuses before req after s hreqs hrun horig hfits with ⟨t, hstep, _⟩
    exact absurd (install_success hstep) (by decide)
  · intro h
    rcases Sound.run hlayout hreal reqs _ (hinit mem) h with ⟨t, hrun, ht⟩
    exact ⟨⟨t, hrun, ht.safe hreal⟩,
      fun before req after s hreqs hbefore horig hfits =>
        absurd (h before req after s hreqs hbefore horig) hfits⟩

/-- Room for the largest stubs is enough. -/
theorem allFit_of_room {self : LHHooker w} {mem : Memory w} {reqs : List (Install w)}
    (hroom : self.rwxBlockUsed + 2 * streamMaxSize * reqs.length ≤ self.rwxBlockSize) :
    AllFit arch ⟨.mapped self, mem, []⟩ reqs := by
  intro before req after t hreqs hrun _
  rcases hlayout.installAll_used before rfl hrun with ⟨now, ht, hsize, hused⟩
  have hstub := hlayout.size_le t.mem req.function
  rw [hreqs, List.length_append, List.length_cons, Nat.mul_add, Nat.mul_succ] at hroom
  rw [fits_iff hlayout ht, hsize]
  omega

end Runs

/-! ## Both architectures -/

/-- Whatever `LHHookerCreate` returned, a run is safe exactly when there is an area and every stub
finds room in it. -/
theorem installsSafely_iff (target : Target) {malloc : Bool} {pageSize : Nat}
    {mmap : Option (Mapping target.wordBits (10 * pageSize))} {created : Hooker target.wordBits}
    (hcreate : hookerCreate malloc pageSize mmap = some created)
    (mem : Memory target.wordBits) (reqs : List (Install target.wordBits)) :
    InstallsSafely (archOf target) created mem reqs ↔
      AllFit (archOf target) ⟨created, mem, []⟩ reqs := by
  cases target with
  | aarch64 => exact installsSafely_iff_allFit aarch64_layout hcreate mem reqs
  | armv7 => exact installsSafely_iff_allFit aarch32_layout hcreate mem reqs

/-- Two hooks in an area of ten pages of 4096 bytes. -/
theorem installsSafely_two :
    InstallsSafely aarch64 (.mapped ⟨0x20000, 0xa000, 0, by decide, by decide⟩) (fun _ => 0)
      [⟨0x1000, 0x2000, true⟩, ⟨0x1100, 0x3000, true⟩] ∧
    InstallsSafely aarch32 (.mapped ⟨0x20000, 0xa000, 0, by decide, by decide⟩) (fun _ => 0)
      [⟨0x1000, 0x2000, true⟩, ⟨0x1100, 0x3000, true⟩] := by
  have hcreate64 : hookerCreate true 0x1000
      (some (⟨0x20000, by decide, by decide, by decide⟩ : Mapping 64 (10 * 0x1000))) =
        some (.mapped ⟨0x20000, 0xa000, 0, by decide, by decide⟩) := rfl
  have hcreate32 : hookerCreate true 0x1000
      (some (⟨0x20000, by decide, by decide, by decide⟩ : Mapping 32 (10 * 0x1000))) =
        some (.mapped ⟨0x20000, 0xa000, 0, by decide, by decide⟩) := rfl
  constructor
  · exact (installsSafely_iff .aarch64 hcreate64 _ _).mpr
      (allFit_of_room aarch64_layout (by decide))
  · exact (installsSafely_iff .armv7 hcreate32 _ _).mpr
      (allFit_of_room aarch32_layout (by decide))

/-- `mmap` fails, and a hook is installed. -/
theorem not_installsSafely_mapFailed :
    ∃ created, hookerCreate true 0x1000 none = some created ∧
      ¬ InstallsSafely aarch64 created (fun _ => 0) [⟨0x1000, 0x2000, true⟩] := by
  refine ⟨.mapFailed, rfl, fun h => ?_⟩
  rcases h.safe with ⟨t, hrun, _⟩
  cases hrun

end LeafHook
end KnShim
