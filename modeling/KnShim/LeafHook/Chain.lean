import KnShim.LeafHook.HookLayout

/-!
# LeafHook.Chain — several hooks on one function

From the second call on, the block that is moved is the long jump of the call before.  Its first two
words are the load of the target and the branch; moved, they load the target from behind the stub
and branch to it before the words of the target, which are moved as if they were instructions, are
reached.  `Chained` says so of every stub handed out so far; each call keeps it.
-/

namespace KnShim
namespace LeafHook

open Lib

variable {w : Nat}

/-- Calls that hook one function, one after the other. -/
def chain (function : BitVec w) (hooks : List (BitVec w)) : List (Install w) :=
  hooks.map fun hook => ⟨function, hook, true⟩

/-- The area is a mapping of its own, and the function is elsewhere. -/
structure LHHooker.Owns (hooker : LHHooker w) (function : BitVec w) (size : Nat) : Prop where
  nonnull : hooker.rwxBlock ≠ 0
  fits : hooker.rwxBlock.toNat + hooker.rwxBlockSize < 2 ^ w
  apart : Memory.Apart hooker.rwxBlock hooker.rwxBlockSize function size

/-- No call uses more than the area has. -/
def NotExhausted (arch : Arch w) (self : LHHooker w) (mem : Memory w) (reqs : List (Install w)) :
    Prop :=
  ∀ before, before <+: reqs → ∀ t, installAll arch ⟨.mapped self, mem, []⟩ before = .ok t →
    t.hooker.rwxBlockUsed ≤ self.rwxBlockSize

/-- What an architecture does with code: `transfers m a target` when code at `a` leads to `target`,
for the addresses at which code can be. -/
structure Arch.Control (arch : Arch w) (items : Memory w → BitVec w → List Item)
    (jump : BitVec w → List Item) (codeAligned : BitVec w → Prop)
    (transfers : Memory w → BitVec w → BitVec w → Prop) : Prop where
  layout : arch.Layout items jump
  blockSize_pos : 0 < arch.blockSize
  aligned : ∀ a : BitVec w, a.toNat % 4 = 0 → codeAligned a
  moved : ∀ mem block target, codeAligned block →
    mem.read block (4 * arch.blockSize) = LiteralPool.assemble (jump target) →
    ∃ rest, items mem block = jump target ++ rest
  jumps : ∀ mem base all before target rest, codeAligned base →
    mem.read base (LiteralPool.assemble all).length = LiteralPool.assemble all →
    (∀ item ∈ all, item.datum.length % 4 = 0) →
    (LiteralPool.assemble all).length ≤ 2 * streamMaxSize →
    all = before ++ (jump target ++ rest) → transfers mem (wordAddr base before.length) target

/-! ## The invariant -/

/-- The stub is in the area, below what has been used, and holds the items. -/
structure Stub.Holds (stub : Stub w) (s : Installed w) (area : BitVec w) (items : List Item) :
    Prop where
  placed : ∃ offset, stub.base = area + BitVec.ofNat w offset ∧
    offset + stub.size ≤ s.hooker.rwxBlockUsed
  aligned : stub.base.toNat % 4 = 0
  size : stub.size = (LiteralPool.assemble items).length
  content : s.mem.read stub.base stub.size = LiteralPool.assemble items

/-- The state after the function was hooked with `hooks`. -/
structure Chained (arch : Arch w) (items : Memory w → BitVec w → List Item)
    (jump : BitVec w → List Item) (hooker : LHHooker w) (mem : Memory w) (function : BitVec w)
    (hooks : List (BitVec w)) (s : Installed w) : Prop where
  mapped : ∃ now, s.hooker = .mapped now ∧ now.rwxBlock = hooker.rwxBlock
  count : s.stubs.length = hooks.length
  original : hooks = [] → s = ⟨.mapped hooker, mem, []⟩
  hooked : ∀ last, hooks.getLast? = some last →
    s.mem.read function (4 * arch.blockSize) = LiteralPool.assemble (jump last)
  first : ∀ stub, s.stubs[0]? = some stub →
    stub.base = hooker.nextStub ∧ stub.Holds s hooker.rwxBlock (items mem function)
  later : ∀ j stub prev, s.stubs[j + 1]? = some stub → hooks[j]? = some prev →
    ∃ m rest, stub.Holds s hooker.rwxBlock (items m function) ∧
      items m function = jump prev ++ rest

section Chain

variable {arch : Arch w} {items : Memory w → BitVec w → List Item} {jump : BitVec w → List Item}
variable {codeAligned : BitVec w → Prop} {transfers : Memory w → BitVec w → BitVec w → Prop}
variable (hcontrol : arch.Control items jump codeAligned transfers)
variable {self : LHHooker w} {mem : Memory w} {function : BitVec w}

/-- What is at an offset in the area is not in the function. -/
theorem LHHooker.Owns.apart_offset {k : Nat} (howns : self.Owns function k) {offset n : Nat}
    (h : offset + n ≤ self.rwxBlockSize) :
    Memory.Apart (self.rwxBlock + BitVec.ofNat w offset) n function k := by
  intro p hp
  have hfits := howns.fits
  exact howns.apart p (hp.of_offset h (by omega)).2

/-- A stub stays as it is when another one is put behind it and the function is overwritten. -/
theorem Stub.Holds.frame {stub : Stub w} {s : Installed w} {self' : LHHooker w}
    {its : List Item} {new bs : Bytes} {stubs : List (Stub w)}
    (h : stub.Holds s self.rwxBlock its) (hs : s.hooker = .mapped self')
    (hblock : self'.rwxBlock = self.rwxBlock) (howns : self.Owns function bs.length)
    (hnew : new.length % 4 = 0) (hroom : self'.rwxBlockUsed + new.length ≤ self.rwxBlockSize) :
    stub.Holds ⟨.mapped (self'.allocRwx new.length).2,
      (s.mem.write self'.nextStub new).write function bs, stubs⟩ self.rwxBlock its := by
  rcases h.placed with ⟨offset, hbase, hoffset⟩
  rw [hs, Hooker.rwxBlockUsed] at hoffset
  have hfits := howns.fits
  refine ⟨⟨offset, hbase, ?_⟩, h.aligned, h.size, ?_⟩
  · rw [Hooker.rwxBlockUsed, self'.allocRwx_used hnew]
    omega
  · -- the new stub begins where the old ones end
    have hstub : Memory.Apart stub.base stub.size self'.nextStub new.length := by
      rw [hbase, LHHooker.nextStub, hblock]
      exact Memory.apart_offsets _ hoffset (by omega)
    have hfunction : Memory.Apart stub.base stub.size function bs.length := by
      rw [hbase]
      exact howns.apart_offset (by omega)
    rw [Memory.read_write_of_apart _ hfunction (by omega),
      Memory.read_write_of_apart _ hstub (by omega), h.content]

/-- The stub that is put. -/
theorem Stub.holds_put (mem' : Memory w) {self' : LHHooker w} {its : List Item} {bs : Bytes}
    (stubs : List (Stub w)) (hblock : self'.rwxBlock = self.rwxBlock)
    (howns : self.Owns function bs.length) (hw : 2 ≤ w)
    (hnew : (LiteralPool.assemble its).length % 4 = 0)
    (hroom : self'.rwxBlockUsed + (LiteralPool.assemble its).length ≤ self.rwxBlockSize)
    (hsize : (LiteralPool.assemble its).length ≤ 2 ^ w) :
    Stub.Holds ⟨self'.nextStub, (LiteralPool.assemble its).length⟩
      ⟨.mapped (self'.allocRwx (LiteralPool.assemble its).length).2,
        (mem'.write self'.nextStub (LiteralPool.assemble its)).write function bs, stubs⟩
      self.rwxBlock its where
  placed := by
    refine ⟨self'.rwxBlockUsed, by rw [LHHooker.nextStub, hblock], ?_⟩
    exact Nat.le_of_eq (self'.allocRwx_used hnew).symm
  aligned := self'.allocRwx_aligned (LiteralPool.assemble its).length hw
  size := rfl
  content := by
    have hapart : Memory.Apart self'.nextStub (LiteralPool.assemble its).length function
        bs.length := by
      rw [LHHooker.nextStub, hblock]
      exact howns.apart_offset hroom
    rw [Memory.read_write_of_apart _ hapart hsize, Memory.read_write_self _ _ hsize]

/-- Before the first call. -/
theorem Chained.init (arch : Arch w) (items : Memory w → BitVec w → List Item)
    (jump : BitVec w → List Item) (self : LHHooker w) (mem : Memory w) (function : BitVec w) :
    Chained arch items jump self mem function [] ⟨.mapped self, mem, []⟩ where
  mapped := ⟨self, rfl, rfl⟩
  count := rfl
  original := fun _ => rfl
  hooked := by simp
  first := by simp
  later := by simp

include hcontrol

/-- A call finds the original block, or the long jump of the call before. -/
theorem Chained.block {hooks : List (BitVec w)} {s : Installed w}
    (h : Chained arch items jump self mem function hooks s) (haligned : codeAligned function) :
    (hooks = [] → s.mem = mem) ∧
      ∀ last, hooks.getLast? = some last → ∃ rest, items s.mem function = jump last ++ rest := by
  refine ⟨fun hnil => by rw [h.original hnil], fun last hlast => ?_⟩
  exact hcontrol.moved _ _ _ haligned (h.hooked last hlast)

/-- One more call. -/
theorem Chained.step {hooks : List (BitVec w)} {s : Installed w} {hook : BitVec w}
    (h : Chained arch items jump self mem function hooks s) (haligned : codeAligned function)
    (howns : self.Owns function (4 * arch.blockSize))
    (hused : s.hooker.rwxBlockUsed ≤ self.rwxBlockSize)
    (hroom : ∀ success t, install arch s ⟨function, hook, true⟩ = .ok (success, t) →
      t.hooker.rwxBlockUsed ≤ self.rwxBlockSize) :
    ∃ t, install arch s ⟨function, hook, true⟩ = .ok (true, t) ∧
      Chained arch items jump self mem function (hooks ++ [hook]) t := by
  have hlayout := hcontrol.layout
  rcases h.mapped with ⟨self', hs, hblock⟩
  rw [hs, Hooker.rwxBlockUsed] at hused
  have hnext : self'.nextStub ≠ 0 := by
    rw [LHHooker.nextStub, hblock]
    exact block_add_ne howns.nonnull howns.fits hused
  have hrun := hlayout.install_orig hs (rfl : (⟨function, hook, true⟩ : Install w).orig = true) hnext
  have hnew := hlayout.stub_aligned s.mem function
  have hfull : self'.rwxBlockUsed + (LiteralPool.assemble (items s.mem function)).length ≤
      self.rwxBlockSize := by
    have hle := hroom _ _ hrun
    rwa [Hooker.rwxBlockUsed, self'.allocRwx_used hnew] at hle
  rw [← hlayout.jump_size hook] at howns
  -- the new stub, with the items that were moved
  have hholds := Stub.holds_put s.mem
    (s.stubs ++ [⟨self'.nextStub, (LiteralPool.assemble (items s.mem function)).length⟩]) hblock
    howns (le_trans (by decide) hlayout.width) hnew hfull (hlayout.size_le_memory _ _)
  refine ⟨_, hrun, ?_⟩
  constructor
  · exact ⟨_, rfl, hblock⟩
  · simp [h.count]
  · simp
  · intro last hlast
    rw [List.getLast?_concat, Option.some.injEq] at hlast
    rw [← hlayout.jump_size hook, Memory.read_write_self _ _ (hlayout.jump_le_memory hook), hlast]
  · intro stub hget
    cases hooks with
    | nil =>
        -- the first call: nothing has been written before
        have hinit := h.original rfl
        subst hinit
        cases hs
        simp only [List.nil_append, List.getElem?_cons_zero, Option.some.injEq] at hget
        subst hget
        exact ⟨rfl, hholds⟩
    | cons hook' hooks =>
        have hpos : 0 < s.stubs.length := by rw [h.count]; simp
        rw [List.getElem?_append_left hpos] at hget
        rcases h.first stub hget with ⟨hbase, hold⟩
        exact ⟨hbase, hold.frame hs hblock howns hnew hfull⟩
  · intro j stub prev hget hprev
    rcases Nat.lt_or_ge (j + 1) s.stubs.length with hlt | hge
    · -- a stub of an earlier call
      rw [List.getElem?_append_left hlt] at hget
      rw [List.getElem?_append_left (by rw [← h.count]; omega)] at hprev
      rcases h.later j stub prev hget hprev with ⟨m, rest, hold, hitems⟩
      exact ⟨m, rest, hold.frame hs hblock howns hnew hfull, hitems⟩
    · -- the stub of this call was made of the long jump of the last one
      have hlen := (List.getElem?_eq_some_iff.mp hget).1
      rw [List.length_append, List.length_singleton] at hlen
      have hj : j + 1 = s.stubs.length := by omega
      rw [List.getElem?_append_right (by omega), hj, Nat.sub_self, List.getElem?_cons_zero,
        Option.some.injEq] at hget
      subst hget
      have hcount := h.count
      have hlast : hooks.getLast? = some prev := by
        rw [List.getElem?_append_left (by omega)] at hprev
        rw [List.getLast?_eq_getElem?, ← hprev]
        congr 1
        omega
      rcases (h.block hcontrol haligned).2 prev hlast with ⟨rest, hitems⟩
      exact ⟨s.mem, rest, hholds, hitems⟩

/-- Any number of calls. -/
theorem Chained.run (haligned : codeAligned function)
    (howns : self.Owns function (4 * arch.blockSize)) (rest : List (BitVec w)) :
    ∀ (hooks : List (BitVec w)) (s : Installed w),
      Chained arch items jump self mem function hooks s →
      (∀ before, before <+: chain function rest → ∀ t, installAll arch s before = .ok t →
        t.hooker.rwxBlockUsed ≤ self.rwxBlockSize) →
      ∃ t, installAll arch s (chain function rest) = .ok t ∧
        Chained arch items jump self mem function (hooks ++ rest) t := by
  induction rest with
  | nil =>
      intro hooks s h _
      exact ⟨s, rfl, by rwa [List.append_nil]⟩
  | cons hook rest ih =>
      intro hooks s h hfits
      -- the area suffices before the call and after it
      have hused := hfits [] (List.nil_prefix) s rfl
      have hroom : ∀ success t, install arch s ⟨function, hook, true⟩ = .ok (success, t) →
          t.hooker.rwxBlockUsed ≤ self.rwxBlockSize := by
        intro success t hstep
        have hprefix : [⟨function, hook, true⟩] <+: chain function (hook :: rest) :=
          ⟨chain function rest, rfl⟩
        refine hfits _ hprefix t ?_
        simp [installAll, hstep]
      rcases h.step hcontrol haligned howns hused hroom with ⟨t, hstep, hchained⟩
      have hrest : ∀ before, before <+: chain function rest → ∀ u,
          installAll arch t before = .ok u → u.hooker.rwxBlockUsed ≤ self.rwxBlockSize := by
        intro before hbefore u hrun
        have hprefix : ⟨function, hook, true⟩ :: before <+: chain function (hook :: rest) :=
          List.cons_prefix_cons.mpr ⟨rfl, hbefore⟩
        refine hfits _ hprefix u ?_
        rw [installAll, hstep, Fallible.ok_bind]
        exact hrun
      rcases ih (hooks ++ [hook]) t hchained hrest with ⟨u, hrun, hu⟩
      refine ⟨u, ?_, by rwa [List.append_assoc, List.singleton_append] at hu⟩
      rw [chain, List.map_cons, installAll, hstep, Fallible.ok_bind]
      exact hrun

/-- What the calls leave behind: the function leads to the last hook, the original that a call
returned leads to the hook before, and the first one to the moved prologue, which is as it was
written, and back into the function. -/
structure Chains (arch : Arch w) (transfers : Memory w → BitVec w → BitVec w → Prop)
    (hooker : LHHooker w) (mem : Memory w) (function : BitVec w) (hooks : List (BitVec w))
    (t : Installed w) : Prop where
  count : t.stubs.length = hooks.length
  last : ∀ hook, hooks.getLast? = some hook → transfers t.mem function hook
  previous : ∀ j stub prev, t.stubs[j + 1]? = some stub → hooks[j]? = some prev →
    transfers t.mem stub.base prev
  prologue : ∀ stub, t.stubs[0]? = some stub →
    let r := arch.rewriteBlock hooker mem function arch.blockSize
    stub.base = r.newBlock ∧ ∀ p, Memory.InRange stub.base stub.size p → t.mem p = r.mem p
  back : ∀ stub, t.stubs[0]? = some stub →
    transfers t.mem (wordAddr stub.base arch.blockSize) (wordAddr function arch.blockSize)

omit hcontrol in
theorem wordAddr_zero (a : BitVec w) : wordAddr a 0 = a := by
  rw [wordAddr, Nat.mul_zero]
  exact BitVec.add_zero a

/-- A stub that holds a jump leads to its target. -/
theorem Stub.Holds.leads {stub : Stub w} {s : Installed w} {area : BitVec w} {m : Memory w}
    (h : stub.Holds s area (items m function)) (before rest : List Item) (target : BitVec w)
    (hitems : items m function = before ++ (jump target ++ rest)) :
    transfers s.mem (wordAddr stub.base before.length) target := by
  have hcontent := h.content
  rw [h.size] at hcontent
  exact hcontrol.jumps _ _ _ _ _ _ (hcontrol.aligned _ h.aligned) hcontent
    (hcontrol.layout.words m function) (hcontrol.layout.size_le m function) hitems

/-- The bytes of a stub are those that the rewriter wrote. -/
theorem Stub.Holds.eq_rewritten {stub : Stub w} {t : Installed w}
    (h : stub.Holds t self.rwxBlock (items mem function)) (hbase : stub.base = self.nextStub) :
    let r := arch.rewriteBlock self mem function arch.blockSize
    stub.base = r.newBlock ∧ ∀ p, Memory.InRange stub.base stub.size p → t.mem p = r.mem p := by
  intro r
  have hr : r = putStub self mem (LiteralPool.assemble (items mem function)) :=
    hcontrol.layout.rewriteBlock self mem function
  refine ⟨by rw [hr]; exact hbase, fun p hp => ?_⟩
  have hsize := hcontrol.layout.size_le_memory mem function
  -- both memories hold the same bytes there
  have hthere : t.mem p = (LiteralPool.assemble (items mem function)).getD
      (p - stub.base).toNat 0 := by
    have hget := Memory.read_getElem? t.mem stub.base hp
    rw [h.content, Memory.add_ofNat_toNat_sub] at hget
    rw [List.getD_eq_getElem?_getD, hget, Option.getD_some]
  rw [Memory.InRange, h.size] at hp
  have hwritten : r.mem p = (LiteralPool.assemble (items mem function)).getD
      (p - stub.base).toNat 0 := by
    rw [hbase] at hp ⊢
    have hput : r.mem p = mem.write self.nextStub (LiteralPool.assemble (items mem function)) p := by
      rw [hr]
      rfl
    rw [hput, Memory.write, List.getD_eq_getElem?_getD, List.getD_eq_getElem?_getD,
      List.getElem?_eq_getElem hp, Option.getD_some, Option.getD_some]
  rw [hthere, hwritten]

omit hcontrol in
/-- Room for the largest stubs is enough. -/
theorem notExhausted_of_room (hlayout : arch.Layout items jump) {reqs : List (Install w)}
    (hroom : self.rwxBlockUsed + 2 * streamMaxSize * reqs.length ≤ self.rwxBlockSize) :
    NotExhausted arch self mem reqs := by
  intro before hbefore t hrun
  rcases hlayout.installAll_used before rfl hrun with ⟨now, ht, _, hused⟩
  have hlen : 2 * streamMaxSize * before.length ≤ 2 * streamMaxSize * reqs.length :=
    Nat.mul_le_mul_left _ hbefore.length_le
  rw [ht, Hooker.rwxBlockUsed]
  omega

/-- Hooks chain. -/
theorem Arch.Control.chains (hooks : List (BitVec w)) (haligned : codeAligned function)
    (howns : self.Owns function (4 * arch.blockSize))
    (hroom : NotExhausted arch self mem (chain function hooks)) :
    ∃ t, installAll arch ⟨.mapped self, mem, []⟩ (chain function hooks) = .ok t ∧
      Chains arch transfers self mem function hooks t := by
  rcases Chained.run hcontrol haligned howns hooks [] _
    (Chained.init arch items jump self mem function) hroom with ⟨t, hrun, hchained⟩
  rw [List.nil_append] at hchained
  refine ⟨t, hrun, hchained.count, ?_, ?_, ?_, ?_⟩
  · intro hook hlast
    have hlen := hcontrol.layout.jump_size hook
    have hread := hchained.hooked hook hlast
    rw [← hlen] at hread
    have hjump := hcontrol.jumps t.mem function (jump hook) [] hook [] haligned hread
      (hcontrol.layout.jump_words hook) (hcontrol.layout.jump_size_le hook) (by simp)
    rwa [List.length_nil, wordAddr_zero] at hjump
  · intro j stub prev hget hprev
    rcases hchained.later j stub prev hget hprev with ⟨m, rest, hholds, hitems⟩
    have hjump := hholds.leads hcontrol [] rest prev hitems
    rwa [List.length_nil, wordAddr_zero] at hjump
  · intro stub hget
    rcases hchained.first stub hget with ⟨hbase, hholds⟩
    exact hholds.eq_rewritten hcontrol hbase
  · intro stub hget
    rcases hchained.first stub hget with ⟨_, hholds⟩
    rcases hcontrol.layout.items_eq mem function with ⟨moved, hmoved, hitems⟩
    have hjump := hholds.leads hcontrol moved [] (wordAddr function arch.blockSize)
      (by rw [List.append_nil, hitems])
    rwa [hmoved] at hjump

end Chain

/-! ## AArch64 -/

/-- Code at `a` leads to `target`, and nothing but `x16` changes on the way. -/
def AArch64Transfers (m : Memory 64) (a target : BitVec 64) : Prop :=
  ∀ regs, ∃ regs', A64.Reaches m ⟨a, regs⟩ ⟨target, regs'⟩ ∧ ∀ r, r ≠ 16 → regs' r = regs r

theorem wordAddr_succ (a : BitVec w) (i : Nat) : wordAddr a i + 4 = wordAddr a (i + 1) := by
  rw [wordAddr, wordAddr, Nat.mul_succ, BitVec.ofNat_add, BitVec.add_assoc]
  rfl

/-- The two items of a jump in an assembled list. -/
theorem getElem?_jump {all before rest : List Item} {load branch : Item}
    (h : all = before ++ ([load, branch] ++ rest)) :
    all[before.length]? = some load ∧ all[before.length + 1]? = some branch := by
  subst h
  constructor <;> simp

/-- What a long jump has put at a block: its load, its branch, and the datum behind them. -/
theorem jump_in_block {w : Nat} {m : Memory w} {block : BitVec w} {jump : List Item} {load : Item}
    {branch : BitVec 32} {size : Nat} (hjump : jump = [load, copyItem branch])
    (hsize : (LiteralPool.assemble jump).length = size) (hmemory : size ≤ 2 ^ w)
    (hmem : m.read block size = LiteralPool.assemble jump) :
    m.load32 (wordAddr block 0) = load.word 8 ∧ m.load32 (wordAddr block 1) = branch ∧
      m.read (wordAddr block 0 + BitVec.ofNat w 8) load.datum.length = load.datum := by
  subst hjump hsize
  have hload : [load, copyItem branch][0]? = some load := rfl
  have hbranch : [load, copyItem branch][1]? = some (copyItem branch) := rfl
  have hdist : LiteralPool.dist [load, copyItem branch] 0 = 8 := rfl
  have hword := LiteralPool.fetch_word hmem hload hmemory
  have hdatum := LiteralPool.fetch_datum hmem hload hmemory
  rw [hdist] at hword hdatum
  exact ⟨hword, LiteralPool.fetch_word hmem hbranch hmemory, hdatum⟩

/-- The words at `a` load `target` into `x16` and branch to it. -/
structure AArch64Jumps (m : Memory 64) (a target : BitVec 64) : Prop where
  loads : A64.loads m a (m.load32 a) = some (16, target)
  branches : A64.decode (m.load32 (a + 4)) = some (.br 16)

theorem AArch64Jumps.transfers {m : Memory 64} {a target : BitVec 64}
    (h : AArch64Jumps m a target) : AArch64Transfers m a target := fun regs =>
  ⟨_, A64.reaches_jump h.loads h.branches (by decide) regs,
    fun _ hr => Function.update_of_ne hr _ _⟩

theorem aarch64_jumps {m : Memory 64} {base target : BitVec 64} {all before rest : List Item}
    (hmem : m.read base (LiteralPool.assemble all).length = LiteralPool.assemble all)
    (hwords : ∀ item ∈ all, item.datum.length % 4 = 0)
    (hsize : (LiteralPool.assemble all).length ≤ 2 * streamMaxSize)
    (hall : all = before ++ (aarch64Jump target ++ rest)) :
    AArch64Jumps m (wordAddr base before.length) target := by
  rcases getElem?_jump hall with ⟨hload, hbranch⟩
  have hmemory : (LiteralPool.assemble all).length ≤ 2 ^ 64 := le_trans hsize (by decide)
  have hdist := LiteralPool.dist_add_le hload
  have hd : LiteralPool.dist all before.length < 2 ^ 20 := by
    have hmax : 2 * streamMaxSize < 2 ^ 20 := by decide
    omega
  have hd4 : LiteralPool.dist all before.length % 4 = 0 :=
    LiteralPool.dist_aligned fun item hitem => hwords item (List.mem_of_mem_take hitem)
  -- the load finds the target, the branch goes there
  have hdatum := LiteralPool.fetch_datum hmem hload hmemory
  have hloads : A64.loads m (wordAddr base before.length)
      (m.load32 (wordAddr base before.length)) = some (16, target) := by
    rw [wordAddr, LiteralPool.fetch_word hmem hload hmemory, loads_aarch64LoadItem _ _ _ _ _ hd hd4]
    have hread := hdatum.trans (rfl : _ = toLE 8 target.toNat)
    rw [show (aarch64LoadItem 1 16 (toLE 8 target.toNat)).datum.length = 8 from toLE_length _ _]
      at hread
    rw [show A64.literalSize ((1 : BitVec 32).setWidth 1 = 0b1#1) = 8 by decide, hread,
      extend_toLE]
    rfl
  have hdecode : A64.decode (m.load32 (wordAddr base before.length + 4)) = some (.br 16) := by
    have hbr : A64.decode (makeAarch64Br 16) = some (.br 16) := by decide
    rw [wordAddr_succ, wordAddr, LiteralPool.fetch_word hmem hbranch hmemory]
    exact hbr
  exact ⟨hloads, hdecode⟩

/-- A long jump is moved as the same jump, whatever the words of its target look like. -/
theorem aarch64Items_of_jump {mem : Memory 64} {block target : BitVec 64}
    (hmem : mem.read block (4 * aarch64.blockSize) =
      LiteralPool.assemble (aarch64Jump target)) :
    ∃ rest, aarch64Items mem block 4 = aarch64Jump target ++ rest := by
  rcases jump_in_block rfl (aarch64_layout.jump_size target) (by decide) hmem with
    ⟨hload, hbr, hdatum⟩
  have hword : mem.load32 (wordAddr block 0) = 0x58000050#32 := by
    have hmake : makeAarch64LdrLiteral 1 (aarch64InsWords (BitVec.ofNat 64 8)) 16 =
        0x58000050#32 := by decide
    exact hload.trans hmake
  rw [show (aarch64LoadItem 1 16 (toLE 8 target.toNat)).datum.length = 8 from
    toLE_length _ _] at hdatum
  -- the first word loads its literal at index 0, which is where the target is
  have hfirst : aarch64Item mem block 0 = aarch64LoadItem 1 16 (toLE 8 target.toNat) := by
    have hitem := aarch64Item_ldrLiteral hword (by decide)
    have hsize : A64.literalSize ((0x58000050#32).extractLsb' 30 1 = 0b1#1) = 8 := by decide
    have haddr : A64.literalAddr (wordAddr block 0) ((0x58000050#32).extractLsb' 5 19) +
        BitVec.ofNat 64 (8 * 0) = wordAddr block 0 + BitVec.ofNat 64 8 := by
      rw [Nat.mul_zero, BitVec.add_zero]
      exact A64.literalAddr_ofNat (d := 8) _ (by decide) (by decide)
    simp only [hsize, haddr] at hitem
    rw [hitem, show (aarch64LoadItem 1 16 (toLE 8 target.toNat)) =
      aarch64LoadItem 1 16 (aarch64LoadItem 1 16 (toLE 8 target.toNat)).datum from rfl, ← hdatum]
    rfl
  have hsecond : aarch64Item mem block 1 = copyItem (makeAarch64Br 16) := by
    simp only [aarch64Item, hbr]
    rw [if_neg (by decide), if_neg (by decide), if_neg (by decide)]
  refine ⟨[aarch64Item mem block 2, aarch64Item mem block 3] ++
    aarch64JumpBack block 4, ?_⟩
  rw [aarch64Items, aarch64Jump, ← hfirst, ← hsecond]
  rfl

theorem aarch64_control : aarch64.Control (fun mem block => aarch64Items mem block 4) aarch64Jump
    (fun _ => True) AArch64Transfers where
  layout := aarch64_layout
  blockSize_pos := by decide
  aligned := fun _ _ => trivial
  moved := fun _ _ _ _ hmem => aarch64Items_of_jump hmem
  jumps := fun _ _ _ _ _ _ _ hmem hwords hsize hall =>
    (aarch64_jumps hmem hwords hsize hall).transfers

/-! ## AArch32 -/

/-- ARM code at `a` leads to `target`, in the instruction set that it selects, and nothing but `r12`
changes on the way. -/
def AArch32Transfers (m : Memory 32) (a target : BitVec 32) : Prop :=
  ∀ regs, ∃ regs', A32.Reaches m ⟨a, false, regs⟩
      ⟨target &&& ~~~1#32, target.getLsbD 0, regs'⟩ ∧ ∀ r, r ≠ 12 → regs' r = regs r

/-- The words at `a` load `target` into `r12` and branch to it. -/
structure AArch32Jumps (m : Memory 32) (a target : BitVec 32) : Prop where
  loads : A32.loads m a (m.load32 a) = some (12, target)
  branches : A32.decode (m.load32 (a + 4)) = some (.bx 12)

theorem AArch32Jumps.transfers {m : Memory 32} {a target : BitVec 32}
    (h : AArch32Jumps m a target) : AArch32Transfers m a target := fun regs =>
  ⟨_, A32.reaches_jump h.loads h.branches (by decide) regs,
    fun _ hr => Function.update_of_ne hr _ _⟩

theorem aarch32_jumps {m : Memory 32} {base target : BitVec 32} {all before rest : List Item}
    (hbase : base.toNat % 4 = 0)
    (hmem : m.read base (LiteralPool.assemble all).length = LiteralPool.assemble all)
    (hsize : (LiteralPool.assemble all).length ≤ 2 * streamMaxSize)
    (hall : all = before ++ (aarch32Jump target ++ rest)) :
    AArch32Jumps m (wordAddr base before.length) target := by
  rcases getElem?_jump hall with ⟨hload, hbranch⟩
  have hmemory : (LiteralPool.assemble all).length ≤ 2 ^ 32 := le_trans hsize (by decide)
  have hlt := (List.getElem?_eq_some_iff.mp hbranch).1
  have hdist := LiteralPool.dist_add_le hload
  have hd : 8 ≤ LiteralPool.dist all before.length ∧
      LiteralPool.dist all before.length < 2 ^ 12 := by
    have hmax : 2 * streamMaxSize < 2 ^ 12 := by decide
    -- the branch stands between the load and its datum
    refine ⟨?_, by omega⟩
    rw [LiteralPool.dist]
    omega
  have hdatum := LiteralPool.fetch_datum hmem hload hmemory
  have hloads : A32.loads m (wordAddr base before.length)
      (m.load32 (wordAddr base before.length)) = some (12, target) := by
    have hword : m.load32 (wordAddr base before.length) = _ :=
      LiteralPool.fetch_word hmem hload hmemory
    have hvalue : m.load32 (wordAddr base before.length +
        BitVec.ofNat 32 (LiteralPool.dist all before.length)) = target := by
      apply Memory.load_of_read
      rwa [show (aarch32LoadItem 12 target).datum.length = 4 from toLE_length _ _] at hdatum
    rw [hword, loads_aarch32LoadItem _ _ _ (wordAddr_aligned (by decide) hbase _) hd, hvalue]
    rfl
  have hdecode : A32.decode (m.load32 (wordAddr base before.length + 4)) = some (.bx 12) := by
    have hbx : A32.decode (makeAarch32Bx 12) = some (.bx 12) := by decide
    rw [wordAddr_succ, wordAddr, LiteralPool.fetch_word hmem hbranch hmemory]
    exact hbx
  exact ⟨hloads, hdecode⟩

theorem aarch32Items_of_jump {mem : Memory 32} {block target : BitVec 32}
    (hblock : block.toNat % 4 = 0)
    (hmem : mem.read block (4 * aarch32.blockSize) =
      LiteralPool.assemble (aarch32Jump target)) :
    ∃ rest, aarch32Items mem block 3 = aarch32Jump target ++ rest := by
  rcases jump_in_block rfl (aarch32_layout.jump_size target) (by decide) hmem with
    ⟨hload, hbx, hdatum⟩
  have hword : mem.load32 (wordAddr block 0) = 0xe59fc000#32 := by
    have hmake : makeAarch32LdrLiteral 1 12 (BitVec.ofNat 32 8 - 8) = 0xe59fc000#32 := by decide
    exact hload.trans hmake
  rw [show (aarch32LoadItem 12 target).datum.length = 4 from toLE_length _ _] at hdatum
  -- the PC of the load is where the target is
  have hvalue : mem.load32 (pcValueAligned block 0 + 0) = target := by
    have hpc : pcValueAligned block 0 = wordAddr block 0 + BitVec.ofNat 32 8 :=
      A32.alignedPC_of_aligned (wordAddr_aligned (by decide) hblock 0)
    have hzero : pcValueAligned block 0 + 0 = pcValueAligned block 0 := BitVec.add_zero _
    rw [hzero, hpc]
    exact Memory.load_of_read hdatum
  have hfirst : aarch32Item mem block 0 = aarch32LoadItem 12 target := by
    simp only [aarch32Item, hword]
    rw [if_neg (by decide), if_pos (by decide), if_pos (by decide),
      show aarch32LdrLiteralDecodeRt 0xe59fc000#32 = 12 by decide,
      show aarch32LdrLiteralDecodeImm 0xe59fc000#32 = 0 by decide, hvalue]
  have hsecond : aarch32Item mem block 1 = copyItem (makeAarch32Bx 12) := by
    simp only [aarch32Item, hbx]
    rw [if_neg (by decide), if_neg (by decide)]
  refine ⟨[aarch32Item mem block 2] ++ aarch32JumpBack block 3, ?_⟩
  rw [aarch32Items, aarch32Jump, ← hfirst, ← hsecond]
  rfl

theorem aarch32_control : aarch32.Control (fun mem block => aarch32Items mem block 3) aarch32Jump
    (fun a => a.toNat % 4 = 0) AArch32Transfers where
  layout := aarch32_layout
  blockSize_pos := by decide
  aligned := fun _ h => h
  moved := fun _ _ _ hblock hmem => aarch32Items_of_jump hblock hmem
  jumps := fun _ _ _ _ _ _ hbase hmem _ hsize hall =>
    (aarch32_jumps hbase hmem hsize hall).transfers

/-! ## Both -/

/-- Hooks chain on both architectures. -/
theorem hooks_chain :
    (∀ (self : LHHooker 64) (mem : Memory 64) (function : BitVec 64) (hooks : List (BitVec 64)),
      self.Owns function (4 * aarch64.blockSize) →
      NotExhausted aarch64 self mem (chain function hooks) →
      ∃ t, installAll aarch64 ⟨.mapped self, mem, []⟩ (chain function hooks) = .ok t ∧
        Chains aarch64 AArch64Transfers self mem function hooks t) ∧
    (∀ (self : LHHooker 32) (mem : Memory 32) (function : BitVec 32) (hooks : List (BitVec 32)),
      function.toNat % 4 = 0 → self.Owns function (4 * aarch32.blockSize) →
      NotExhausted aarch32 self mem (chain function hooks) →
      ∃ t, installAll aarch32 ⟨.mapped self, mem, []⟩ (chain function hooks) = .ok t ∧
        Chains aarch32 AArch32Transfers self mem function hooks t) :=
  ⟨fun _ _ _ hooks howns hroom => aarch64_control.chains hooks trivial howns hroom,
    fun _ _ _ hooks haligned howns hroom => aarch32_control.chains hooks haligned howns hroom⟩

/-- Two hooks, at `0x2000` and `0x3000`, on a function at `0x1000`. -/
theorem hooks_chain_two :
    (∃ t, installAll aarch64 ⟨.mapped ⟨0x20000, 0xa000, 0, by decide, by decide⟩, fun _ => 0, []⟩
        (chain 0x1000 [0x2000, 0x3000]) = .ok t ∧
      Chains aarch64 AArch64Transfers ⟨0x20000, 0xa000, 0, by decide, by decide⟩ (fun _ => 0)
        0x1000 [0x2000, 0x3000] t) ∧
    (∃ t, installAll aarch32 ⟨.mapped hookerAt20000, fun _ => 0, []⟩
        (chain 0x1000 [0x2000, 0x3000]) = .ok t ∧
      Chains aarch32 AArch32Transfers hookerAt20000 (fun _ => 0) 0x1000 [0x2000, 0x3000] t) := by
  constructor
  · refine hooks_chain.1 _ _ _ _ ⟨by decide, by decide, ?_⟩
      (notExhausted_of_room aarch64_layout (by decide))
    intro p harea hfunction
    simp only [Memory.InRange, aarch64] at harea hfunction
    bv_omega
  · refine hooks_chain.2 _ _ _ _ (by decide) ⟨by decide, by decide, ?_⟩
      (notExhausted_of_room aarch32_layout (by decide))
    intro p harea hfunction
    simp only [Memory.InRange, aarch32, hookerAt20000] at harea hfunction
    bv_omega

end LeafHook
end KnShim
