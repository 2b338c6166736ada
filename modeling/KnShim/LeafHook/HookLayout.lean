import KnShim.LeafHook.AArch32Relocation
import KnShim.LeafHook.AArch64Relocation
import KnShim.LeafHook.Hook

/-!
# LeafHook.HookLayout — what a hook puts into memory

A stub and a long jump are both assembled from items, and the jump at the end of a stub is made of
the same two items as a long jump.  `Arch.Layout` states this for an architecture; what follows
about sequences of hooks is proved from it, once for both.
-/

namespace KnShim
namespace LeafHook

open Lib

variable {w : Nat}

/-- A stub, allocated and copied in one piece. -/
def putStub (self : LHHooker w) (mem : Memory w) (stub : Bytes) : Rewritten w where
  newBlock := (self.allocRwx stub.length).1
  hooker := (self.allocRwx stub.length).2
  mem := mem.write (self.allocRwx stub.length).1 stub

/-- The two copies of `LH_COPY_TO_NEW_BLOCK` put one stub. -/
theorem Emitted.putStub {codeSize : Nat} {items : List Item} {streams : LHStream × LHStream}
    (h : Emitted codeSize items streams) (hsize : codeSize = 4 * items.length)
    (self : LHHooker w) (mem : Memory w) (hw : 9 ≤ w) :
    copyToNewBlock self mem streams.1 streams.2 =
      LeafHook.putStub self mem (LiteralPool.assemble items) := by
  have htell : streams.1.tell + streams.2.tell = (LiteralPool.assemble items).length := by
    rw [h.code_tell, h.data_tell, LiteralPool.assemble_length]
  have hmem := h.stub hsize self mem hw
  rw [copyToNewBlock, htell] at hmem
  rw [copyToNewBlock, htell, LeafHook.putStub, Rewritten.mk.injEq]
  exact ⟨rfl, rfl, hmem⟩

/-- How an architecture lays out stubs and long jumps: `items` of the moved block, the last of them
a `jump`. -/
structure Arch.Layout (arch : Arch w) (items : Memory w → BitVec w → List Item)
    (jump : BitVec w → List Item) : Prop where
  width : 9 ≤ w
  rewriteBlock : ∀ self mem block, arch.rewriteBlock self mem block arch.blockSize =
    putStub self mem (LiteralPool.assemble (items mem block))
  writeLongJump : ∀ mem code target,
    arch.writeLongJump mem code target = mem.write code (LiteralPool.assemble (jump target))
  jump_size : ∀ target, (LiteralPool.assemble (jump target)).length = 4 * arch.blockSize
  items_eq : ∀ mem block, ∃ moved : List Item, moved.length = arch.blockSize ∧
    items mem block = moved ++ jump (wordAddr block arch.blockSize)
  size_le : ∀ mem block, (LiteralPool.assemble (items mem block)).length ≤ 2 * streamMaxSize
  words : ∀ mem block, ∀ item ∈ items mem block, item.datum.length % 4 = 0

/-- When all data are words, so is the whole. -/
theorem assemble_length_aligned {items : List Item}
    (h : ∀ item ∈ items, item.datum.length % 4 = 0) :
    (LiteralPool.assemble items).length % 4 = 0 := by
  have hdist : LiteralPool.dist items items.length % 4 = 0 :=
    LiteralPool.dist_aligned fun item hitem => h item (List.mem_of_mem_take hitem)
  rw [LiteralPool.dist, List.take_length] at hdist
  rw [LiteralPool.assemble_length]
  omega

/-- Two words one behind the other. -/
theorem store32_store32 (mem : Memory w) (code : BitVec w) (bs : Bytes) (i : Nat) (v : BitVec 32)
    (hbs : bs.length = 4 * i) (hw : 9 ≤ w) (hi : i ≤ 3) :
    (mem.write code bs).store32 (wordAddr code i) v = mem.write code (bs ++ toLE 4 v.toNat) := by
  have hpow : 2 ^ 9 ≤ 2 ^ w := Nat.pow_le_pow_right (by decide) hw
  rw [Memory.store32, wordAddr, ← hbs]
  refine Memory.write_append mem code bs _ ?_
  rw [hbs, toLE_length]
  omega

/-! ## One call -/

/-- Where the next stub goes. -/
def LHHooker.nextStub (self : LHHooker w) : BitVec w :=
  self.rwxBlock + BitVec.ofNat w self.rwxBlockUsed

/-- Rounding up is for sizes that are not words. -/
theorem LHHooker.roundUp_of_aligned {size : Nat} (h : size % 4 = 0) :
    LHHooker.roundUp size = size := by
  have hmask : size &&& 3 = 0 := (Nat.and_two_pow_sub_one_eq_mod size 2).trans h
  rw [LHHooker.roundUp, hmask, if_neg (by decide)]

theorem LHHooker.allocRwx_used (self : LHHooker w) {size : Nat} (h : size % 4 = 0) :
    (self.allocRwx size).2.rwxBlockUsed = self.rwxBlockUsed + size :=
  congrArg (self.rwxBlockUsed + ·) (LHHooker.roundUp_of_aligned h)

/-- A block that does not reach around the end of the memory has no `NULL` behind its start. -/
theorem block_add_ne {block : BitVec w} {size used : Nat} (hblock : block ≠ 0)
    (hfits : block.toNat + size < 2 ^ w) (h : used ≤ size) :
    block + BitVec.ofNat w used ≠ 0 := by
  intro hzero
  have hnull : (0 : BitVec w).toNat = 0 := by simp
  have hnat := congrArg BitVec.toNat hzero
  rw [BitVec.toNat_add, BitVec.toNat_ofNat, Nat.mod_eq_of_lt (by omega : used < 2 ^ w),
    Nat.mod_eq_of_lt (by omega), hnull] at hnat
  exact hblock (BitVec.eq_of_toNat_eq (by omega))

namespace Arch.Layout

variable {arch : Arch w} {items : Memory w → BitVec w → List Item} {jump : BitVec w → List Item}
variable (hlayout : arch.Layout items jump)
include hlayout

theorem stub_aligned (mem : Memory w) (block : BitVec w) :
    (LiteralPool.assemble (items mem block)).length % 4 = 0 :=
  assemble_length_aligned (hlayout.words mem block)

theorem size_le_memory (mem : Memory w) (block : BitVec w) :
    (LiteralPool.assemble (items mem block)).length ≤ 2 ^ w := by
  calc
    (LiteralPool.assemble (items mem block)).length ≤ 2 ^ 9 := hlayout.size_le mem block
    _ ≤ 2 ^ w := Nat.pow_le_pow_right (by decide) hlayout.width

/-- A long jump is no longer than a stub. -/
theorem jump_le_memory (target : BitVec w) :
    (LiteralPool.assemble (jump target)).length ≤ 2 ^ w := by
  rcases hlayout.items_eq (fun _ => 0) 0 with ⟨moved, hmoved, hitems⟩
  calc
    (LiteralPool.assemble (jump target)).length = 4 * moved.length := by
      rw [hlayout.jump_size, hmoved]
    _ ≤ (LiteralPool.assemble (items (fun _ => 0) 0)).length := by
      rw [LiteralPool.assemble_length, hitems, List.length_append]
      omega
    _ ≤ 2 ^ w := hlayout.size_le_memory _ _

/-- Every target is the end of some block, so a jump is a part of a stub. -/
theorem jump_in_stub (mem : Memory w) (target : BitVec w) :
    ∃ block, ∃ moved : List Item, moved.length = arch.blockSize ∧
      items mem block = moved ++ jump target := by
  refine ⟨target - BitVec.ofNat w (4 * arch.blockSize), ?_⟩
  rcases hlayout.items_eq mem (target - BitVec.ofNat w (4 * arch.blockSize)) with
    ⟨moved, hmoved, hitems⟩
  rw [wordAddr, BitVec.sub_add_cancel] at hitems
  exact ⟨moved, hmoved, hitems⟩

theorem jump_words (target : BitVec w) : ∀ item ∈ jump target, item.datum.length % 4 = 0 := by
  rcases hlayout.jump_in_stub (fun _ => 0) target with ⟨block, moved, _, hitems⟩
  intro item hitem
  apply hlayout.words (fun _ => 0) block
  rw [hitems]
  exact List.mem_append_right _ hitem

theorem jump_size_le (target : BitVec w) :
    (LiteralPool.assemble (jump target)).length ≤ 2 * streamMaxSize := by
  rcases hlayout.jump_in_stub (fun _ => 0) target with ⟨block, moved, hmoved, hitems⟩
  have hle := hlayout.size_le (fun _ => 0) block
  rw [LiteralPool.assemble_length, hitems, List.length_append, hmoved] at hle
  rw [hlayout.jump_size]
  omega

/-- The call that asks for the original: a stub, and the long jump. -/
theorem install_orig {s : Installed w} {self : LHHooker w} {req : Install w}
    (hs : s.hooker = .mapped self) (horig : req.orig = true) (hnext : self.nextStub ≠ 0) :
    let stub := LiteralPool.assemble (items s.mem req.function)
    install arch s req =
      .ok (true, ⟨.mapped (self.allocRwx stub.length).2,
        (s.mem.write self.nextStub stub).write req.function
          (LiteralPool.assemble (jump req.hook)),
        s.stubs ++ [⟨self.nextStub, stub.length⟩]⟩) := by
  intro stub
  have hnext' : (putStub self s.mem stub).newBlock ≠ 0 := hnext
  have hrewrite : s.hooker.rewriteBlock arch s.mem req.function =
      .ok (putStub self s.mem stub) := by
    rw [hs, Hooker.rewriteBlock]
    simp only [hlayout.rewriteBlock]
    exact if_neg hnext'
  have hrun : hookerHookFunction arch s.hooker s.mem req.function req.hook req.orig =
      .ok ⟨true, some self.nextStub, .mapped (self.allocRwx stub.length).2,
        (s.mem.write self.nextStub stub).write req.function
          (LiteralPool.assemble (jump req.hook))⟩ := by
    rw [hookerHookFunction, horig, if_pos rfl, hrewrite, Fallible.ok_bind, if_neg hnext',
      hlayout.writeLongJump]
    rfl
  -- the allocation is as large as the stub
  have hused := self.allocRwx_used (hlayout.stub_aligned s.mem req.function)
  have hsize : (self.allocRwx stub.length).2.rwxBlockUsed - self.rwxBlockUsed = stub.length := by
    rw [hused, Nat.add_sub_cancel_left]
  rw [install, hrun, Fallible.ok_bind, hs]
  simp only [Option.map_some, Option.toList_some, Hooker.rwxBlockUsed, hsize, Fallible.pure_eq]

/-- It changes the function and the memory of the hooker alone. -/
theorem install_frame {s : Installed w} {self : LHHooker w} {req : Install w}
    (hs : s.hooker = .mapped self) (horig : req.orig = true) (hblock : self.rwxBlock ≠ 0)
    (hend : self.rwxBlock.toNat + self.rwxBlockSize < 2 ^ w)
    (hroom : self.rwxBlockUsed + 2 * streamMaxSize ≤ self.rwxBlockSize) :
    ∃ now stub mem, install arch s req = .ok (true, ⟨.mapped now, mem, s.stubs ++ [stub]⟩) ∧
      now.rwxBlock = self.rwxBlock ∧ now.rwxBlockSize = self.rwxBlockSize ∧
      now.rwxBlockUsed ≤ self.rwxBlockUsed + 2 * streamMaxSize ∧
      ∀ p, ¬ Memory.InRange req.function (4 * arch.blockSize) p →
        ¬ Memory.InRange self.rwxBlock self.rwxBlockSize p → mem p = s.mem p := by
  have hnext : self.nextStub ≠ 0 := block_add_ne hblock hend (by omega)
  have hsize := hlayout.size_le s.mem req.function
  refine ⟨_, _, _, hlayout.install_orig hs horig hnext, rfl, rfl, ?_, ?_⟩
  · rw [self.allocRwx_used (hlayout.stub_aligned s.mem req.function)]
    exact Nat.add_le_add_left hsize _
  · intro p hfunction harea
    rw [Memory.write_of_not_inRange _ (by rwa [hlayout.jump_size])]
    apply Memory.write_of_not_inRange
    intro hstub
    exact harea (hstub.of_offset (by omega) (by omega)).2

omit hlayout in
/-- The call that does not: only the long jump. -/
theorem install_no_orig {s : Installed w} {req : Install w} (horig : req.orig = false) :
    install arch s req =
      .ok (true, ⟨s.hooker, arch.writeLongJump s.mem req.function req.hook, s.stubs⟩) := by
  simp [install, hookerHookFunction, horig]

/-- A call uses no more of the area than two streams. -/
theorem install_used {s t : Installed w} {self : LHHooker w} {req : Install w} {success : Bool}
    (hs : s.hooker = .mapped self) (hrun : install arch s req = .ok (success, t)) :
    ∃ now, t.hooker = .mapped now ∧ now.rwxBlockSize = self.rwxBlockSize ∧
      now.rwxBlockUsed ≤ self.rwxBlockUsed + 2 * streamMaxSize := by
  cases horig : req.orig with
  | false =>
      rw [install_no_orig horig, Except.ok.injEq, Prod.mk.injEq] at hrun
      exact ⟨self, by rw [← hrun.2, hs], rfl, Nat.le_add_right _ _⟩
  | true =>
      by_cases hnext : self.nextStub = 0
      · have hnull : (putStub self s.mem
            (LiteralPool.assemble (items s.mem req.function))).newBlock = 0 := hnext
        simp [install, hookerHookFunction, horig, hs, Hooker.rewriteBlock,
          hlayout.rewriteBlock, hnull] at hrun
      · rw [hlayout.install_orig hs horig hnext, Except.ok.injEq, Prod.mk.injEq] at hrun
        rcases hrun with ⟨_, rfl⟩
        refine ⟨_, rfl, rfl, ?_⟩
        rw [self.allocRwx_used (hlayout.stub_aligned _ _)]
        exact Nat.add_le_add_left (hlayout.size_le s.mem req.function) _

theorem installAll_used (reqs : List (Install w)) :
    ∀ {s t : Installed w} {self : LHHooker w}, s.hooker = .mapped self →
      installAll arch s reqs = .ok t →
      ∃ now, t.hooker = .mapped now ∧ now.rwxBlockSize = self.rwxBlockSize ∧
        now.rwxBlockUsed ≤ self.rwxBlockUsed + 2 * streamMaxSize * reqs.length := by
  induction reqs with
  | nil =>
      intro s t self hs hrun
      cases hrun
      exact ⟨self, hs, rfl, Nat.le_add_right _ _⟩
  | cons req reqs ih =>
      intro s t self hs hrun
      rw [installAll, Fallible.bind_eq_ok] at hrun
      rcases hrun with ⟨⟨success, u⟩, hstep, hrest⟩
      rcases hlayout.install_used hs hstep with ⟨mid, hu, hmid, hfirst⟩
      rcases ih hu hrest with ⟨now, ht, hsize, hlast⟩
      refine ⟨now, ht, hsize.trans hmid, ?_⟩
      rw [List.length_cons, Nat.mul_succ]
      omega

end Arch.Layout

/-! ## AArch64 -/

/-- The items of a jump. -/
def aarch64Jump (target : BitVec 64) : List Item :=
  [aarch64LoadItem 1 16 (toLE 8 target.toNat), copyItem (makeAarch64Br 16)]

/-- A pointer is written as its two words. -/
theorem toLE_pointer (target : BitVec 64) :
    toLE 4 (target.extractLsb' 0 32).toNat ++ toLE 4 (target.extractLsb' 32 32).toNat =
      toLE 8 target.toNat := by
  have hpow : 2 ^ 32 = 256 ^ 4 := by decide
  have hlow : (target.extractLsb' 0 32).toNat = target.toNat % 256 ^ 4 := by
    rw [BitVec.extractLsb'_toNat, Nat.shiftRight_zero, ← hpow]
  have hhigh : (target.extractLsb' 32 32).toNat = target.toNat / 256 ^ 4 % 256 ^ 4 := by
    rw [BitVec.extractLsb'_toNat, Nat.shiftRight_eq_div_pow, ← hpow]
  rw [hlow, hhigh, toLE_mod, toLE_mod, ← toLE_add]

theorem writeAArch64LongJump_eq (mem : Memory 64) (code target : BitVec 64) :
    writeAArch64LongJump mem code target =
      mem.write code (LiteralPool.assemble (aarch64Jump target)) := by
  have hfirst : mem.store32 (wordAddr code 0) (makeAarch64LdrLiteral 1 (8#32 >>> 2) 16) =
      mem.write code (toLE 4 (makeAarch64LdrLiteral 1 (8#32 >>> 2) 16).toNat) := by
    rw [Memory.store32, wordAddr]
    simp
  -- the target is behind the two instructions, where the load was made to find it
  have hword : makeAarch64LdrLiteral 1 (8#32 >>> 2) 16 =
      (aarch64LoadItem 1 16 (toLE 8 target.toNat)).word 8 := by
    simp only [aarch64LoadItem]
    decide
  rw [writeAArch64LongJump, hfirst,
    store32_store32 mem code _ 1 _ (by simp) (by decide) (by decide),
    store32_store32 mem code _ 2 _ (by simp) (by decide) (by decide),
    store32_store32 mem code _ 3 _ (by simp) (by decide) (by decide), List.append_assoc _ (toLE 4 _),
    toLE_pointer, hword]
  simp [LiteralPool.assemble, LiteralPool.words, LiteralPool.codeOf, aarch64Jump, copyItem,
    aarch64LoadItem]

theorem aarch64Items_eq (mem : Memory 64) (block : BitVec 64) :
    aarch64Items mem block 4 =
      (List.range 4).map (aarch64Item mem block) ++ aarch64Jump (wordAddr block 4) := rfl

theorem aarch64_layout : aarch64.Layout (fun mem block => aarch64Items mem block 4) aarch64Jump where
  width := by decide
  rewriteBlock := by
    intro self mem block
    rcases aarch64_emitted mem block (by decide : 4 ≤ 31) with ⟨streams, hemitted, hrun⟩
    have hsize : 4 * (4 + 2) = 4 * (aarch64Items mem block 4).length := by
      simp [aarch64Items_eq, aarch64Jump]
    exact (hrun self).trans (hemitted.putStub hsize self mem (by decide))
  writeLongJump := writeAArch64LongJump_eq
  jump_size := by
    intro target
    simp [aarch64Jump, aarch64LoadItem, copyItem, aarch64]
  items_eq := fun mem block => ⟨(List.range 4).map (aarch64Item mem block), by simp [aarch64],
    aarch64Items_eq mem block⟩
  size_le := by
    intro mem block
    rcases aarch64_emitted mem block (by decide : 4 ≤ 31) with ⟨streams, hemitted, _⟩
    exact hemitted.assemble_length_le
  words := by
    intro mem block item hitem
    simp only [aarch64Items_eq, List.mem_append] at hitem
    rcases hitem with hmoved | hjump
    · rcases List.mem_map.mp hmoved with ⟨i, _, rfl⟩
      exact (aarch64Item_size mem block i).2
    · simp only [aarch64Jump, List.mem_cons, List.not_mem_nil, or_false] at hjump
      rcases hjump with rfl | rfl
      · simp [aarch64LoadItem]
      · rfl

/-! ## AArch32 -/

/-- The items of a jump. -/
def aarch32Jump (target : BitVec 32) : List Item :=
  [aarch32LoadItem 12 target, copyItem (makeAarch32Bx 12)]

theorem writeAArch32LongJump_eq (mem : Memory 32) (code target : BitVec 32) :
    writeAArch32LongJump mem code target =
      mem.write code (LiteralPool.assemble (aarch32Jump target)) := by
  have hfirst : mem.store32 (wordAddr code 0) (makeAarch32LdrLiteral 1 12 0) =
      mem.write code (toLE 4 (makeAarch32LdrLiteral 1 12 0).toNat) := by
    rw [Memory.store32, wordAddr]
    simp
  -- the PC reads 8 ahead, which is where the target is
  have hword : makeAarch32LdrLiteral 1 12 0 = (aarch32LoadItem 12 target).word 8 := by
    simp only [aarch32LoadItem]
    decide
  rw [writeAArch32LongJump, hfirst,
    store32_store32 mem code _ 1 _ (by simp) (by decide) (by decide),
    store32_store32 mem code _ 2 _ (by simp) (by decide) (by decide), hword]
  simp [LiteralPool.assemble, LiteralPool.words, LiteralPool.codeOf, aarch32Jump, copyItem,
    aarch32LoadItem]

theorem aarch32Items_eq (mem : Memory 32) (block : BitVec 32) :
    aarch32Items mem block 3 =
      (List.range 3).map (aarch32Item mem block) ++ aarch32Jump (wordAddr block 3) := rfl

theorem aarch32_layout : aarch32.Layout (fun mem block => aarch32Items mem block 3) aarch32Jump where
  width := by decide
  rewriteBlock := by
    intro self mem block
    rcases aarch32_emitted mem block (by decide : 3 ≤ 62) with ⟨streams, hemitted, hrun⟩
    have hsize : 4 * (3 + 2) = 4 * (aarch32Items mem block 3).length := by
      simp [aarch32Items_eq, aarch32Jump]
    exact (hrun self).trans (hemitted.putStub hsize self mem (by decide))
  writeLongJump := writeAArch32LongJump_eq
  jump_size := by
    intro target
    simp [aarch32Jump, aarch32LoadItem, copyItem, aarch32]
  items_eq := fun mem block => ⟨(List.range 3).map (aarch32Item mem block), by simp [aarch32],
    aarch32Items_eq mem block⟩
  size_le := by
    intro mem block
    rcases aarch32_emitted mem block (by decide : 3 ≤ 62) with ⟨streams, hemitted, _⟩
    exact hemitted.assemble_length_le
  words := by
    intro mem block item hitem
    simp only [aarch32Items_eq, List.mem_append] at hitem
    rcases hitem with hmoved | hjump
    · rcases List.mem_map.mp hmoved with ⟨i, _, rfl⟩
      exact (aarch32Item_size mem block i).2
    · simp only [aarch32Jump, List.mem_cons, List.not_mem_nil, or_false] at hjump
      rcases hjump with rfl | rfl
      · simp [aarch32LoadItem]
      · rfl

end LeafHook
end KnShim
