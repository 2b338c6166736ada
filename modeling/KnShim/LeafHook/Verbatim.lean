import KnShim.LeafHook.AArch32Relocation
import KnShim.LeafHook.AArch64Relocation
import KnShim.LeafHook.Hook

/-!
# LeafHook.Verbatim — which words are moved as they are

A word that none of the masks of the rewriter matches is copied into the stub.  That is right for
every instruction that does the same wherever it is executed.  The rewriter knows three of the forms
in which an A64 instruction reads the PC and two of the A32 ones; it refuses none of the others, so a
block with one of those is moved and then runs differently.
-/

namespace KnShim
namespace LeafHook

open Lib

variable {w : Nat}

/-- One round of the loop of a rewriter: it writes the word as it is, and no datum. -/
def CopiedVerbatim (round : LHStream × LHStream → Nat → LHStream × LHStream) (ins : BitVec 32)
    (i : Nat) : Prop :=
  ∀ streams, round streams i = (streams.1.write32 ins, streams.2)

/-- The call fails and leaves the code of the function as it was. -/
def Refused (arch : Arch w) (self : LHHooker w) (mem : Memory w) (function hook : BitVec w) : Prop :=
  ∃ h, hookerHookFunction arch (.mapped self) mem function hook true = .ok h ∧ h.success = false ∧
    h.mem.read function (4 * arch.blockSize) = mem.read function (4 * arch.blockSize)

/-- No call is refused. -/
theorem not_refused (arch : Arch w) (self : LHHooker w) (mem : Memory w)
    (function hook : BitVec w) : ¬ Refused arch self mem function hook := by
  rintro ⟨h, hrun, hsuccess, _⟩
  rw [hookerHookFunction_success hrun] at hsuccess
  cases hsuccess

/-- A word whose item has a datum is not just copied. -/
theorem datum_eq_nil_of_copied {round : LHStream × LHStream → Nat → LHStream × LHStream}
    {ins : BitVec 32} {i codeSize : Nat} {item : Item} (hcopied : CopiedVerbatim round ins i)
    (hround : round (LHStream.init, LHStream.init) i =
      push codeSize (LHStream.init, LHStream.init) item)
    (hsize : item.datum.length ≤ streamMaxSize) : item.datum = [] := by
  have hdata : LHStream.init.write item.datum = LHStream.init := by
    have heq := (hround.symm.trans (hcopied _))
    exact congrArg Prod.snd heq
  -- the write to the empty stream fits
  have hroom : LHStream.init.tell + item.datum.length ≤ streamMaxSize := by
    rw [show LHStream.init.tell = 0 from rfl, Nat.zero_add]
    exact hsize
  have hwrite := LHStream.write_data hroom
  rw [hdata] at hwrite
  exact hwrite.symm

/-! ## A64 -/

section A64

variable {mem : Memory 64} {block : BitVec 64} {i : Nat} {ins : BitVec 32}

/-- The words that are copied are those that no mask matches. -/
theorem aarch64_copiedVerbatim_iff (hins : mem.load32 (wordAddr block i) = ins) :
    CopiedVerbatim (rewriteAarch64Word mem block 4) ins i ↔
      ¬ isAarch64Adr ins ∧ ¬ isAarch64Adrp ins ∧ ¬ isAarch64LdrLiteral ins := by
  constructor
  · intro hcopied
    have hround : rewriteAarch64Word mem block 4 (LHStream.init, LHStream.init) i =
        push (4 * (4 + 2)) (LHStream.init, LHStream.init) (aarch64Item mem block i) :=
      rewriteAarch64Word_eq _ (Nat.zero_le _) (by decide)
    have hsize := (aarch64Item_size mem block i).1
    have hnil := datum_eq_nil_of_copied hcopied hround (le_trans hsize (by decide))
    -- each of the three forms has a datum
    refine ⟨fun hadr => ?_, fun hadrp => ?_, fun hldr => ?_⟩
    · rw [aarch64Item_adr hins hadr] at hnil
      exact absurd (congrArg List.length hnil) (by simp [aarch64LoadItem])
    · rw [aarch64Item_adrp hins hadrp] at hnil
      exact absurd (congrArg List.length hnil) (by simp [aarch64LoadItem])
    · rw [aarch64Item_ldrLiteral hins hldr] at hnil
      have hlen := congrArg List.length hnil
      simp only [aarch64LoadItem, Memory.read_length, A64.literalSize, List.length_nil] at hlen
      split at hlen <;> cases hlen
  · rintro ⟨hadr, hadrp, hldr⟩ ⟨code, data⟩
    simp only [rewriteAarch64Word, hins]
    rw [if_neg hadr, if_neg hadrp, if_neg hldr]

/-- A copied word stands in the stub at its own place. -/
theorem aarch64_copiedVerbatim_stub (self : LHHooker 64) (hi : i < 4)
    (hcopied : CopiedVerbatim (rewriteAarch64Word mem block 4) (mem.load32 (wordAddr block i)) i) :
    let r := rewriteAArch64Block self mem block 4
    r.mem.load32 (wordAddr r.newBlock i) = mem.load32 (wordAddr block i) := by
  rcases (aarch64_copiedVerbatim_iff rfl).mp hcopied with ⟨hadr, hadrp, hldr⟩
  have hitem : aarch64Item mem block i = copyItem (mem.load32 (wordAddr block i)) := by
    simp only [aarch64Item]
    rw [if_neg hadr, if_neg hadrp, if_neg hldr]
  rcases aarch64_emitted mem block (by decide : 4 ≤ 31) with ⟨streams, hemitted, hrun⟩
  rcases hemitted.fetch (fun i => (aarch64Item_size mem block i).2) self mem (by decide) hi with
    ⟨d, _, hfetch, _⟩
  rw [← hrun self, hitem] at hfetch
  exact hfetch

/-- The masks match exactly three forms. -/
theorem aarch64_tests_iff :
    (isAarch64Adr ins ∨ isAarch64Adrp ins ∨ isAarch64LdrLiteral ins) ↔
      ∃ form ∈ [A64.PcForm.adr, .adrp, .ldrLiteral], form.Matches ins := by
  rw [isAarch64Adr_iff, isAarch64Adrp_iff, isAarch64LdrLiteral_iff]
  simp [A64.PcForm.Matches]

/-- The other forms differ from these three in their class bits. -/
theorem aarch64_missed {form : A64.PcForm} (h : form.Matches ins)
    (hother : form ∉ [A64.PcForm.adr, .adrp, .ldrLiteral]) :
    ¬ (isAarch64Adr ins ∨ isAarch64Adrp ins ∨ isAarch64LdrLiteral ins) := by
  rw [isAarch64Adr_iff, isAarch64Adrp_iff, isAarch64LdrLiteral_iff]
  -- it is enough that the fields cannot be both at once
  have hexclude (hpage : ins.extractLsb' 24 5 = 0b10000#5 → False)
      (hldr : ins.extractLsb' 31 1 = 0b0#1 → ins.extractLsb' 24 6 = 0b011000#6 → False) :
      ¬ ((ins.extractLsb' 31 1 = 0b0#1 ∧ ins.extractLsb' 24 5 = 0b10000#5) ∨
        (ins.extractLsb' 31 1 = 0b1#1 ∧ ins.extractLsb' 24 5 = 0b10000#5) ∨
          ins.extractLsb' 31 1 = 0b0#1 ∧ ins.extractLsb' 24 6 = 0b011000#6) := by
    rintro (⟨_, hadr⟩ | ⟨_, hadrp⟩ | ⟨hop, hclass⟩)
    · exact hpage hadr
    · exact hpage hadrp
    · exact hldr hop hclass
  cases form with
  | adr => simp at hother
  | adrp => simp at hother
  | ldrLiteral => simp at hother
  | ldrswLiteral | prfmLiteral =>
      exact hexclude (fun hp => fields_conflict hp h (by decide))
        (fun hop _ => fields_conflict hop h (by decide))
  | simdLiteral =>
      exact hexclude (fun hp => fields_conflict hp h.1 (by decide))
        (fun _ hc => fields_conflict hc h.1 (by decide))
  | b | bl | bCond | compareBranch | testBranch | blrAuth =>
      exact hexclude (fun hp => fields_conflict hp h (by decide))
        (fun _ hc => fields_conflict hc h (by decide))
  | blr | blrAuthZero | compareBranchReg | compareBranchImm | pacPC | authPC | retAuthPC =>
      exact hexclude (fun hp => fields_conflict hp h.1 (by decide))
        (fun _ hc => fields_conflict hc h.1 (by decide))

end A64

/-- A call of `LHHookerHookFunction` that asks for the original is refused, or what it copies does
not depend on where it is. -/
def AArch64CopiesIndependent (self : LHHooker 64) (mem : Memory 64) (function hook : BitVec 64) :
    Prop :=
  Refused aarch64 self mem function hook ∨
    ∀ i < 4, CopiedVerbatim (rewriteAarch64Word mem function 4)
      (mem.load32 (wordAddr function i)) i →
        ¬ A64.PositionDependent (mem.load32 (wordAddr function i))

theorem aarch64_copiesIndependent_iff (self : LHHooker 64) (mem : Memory 64)
    (function hook : BitVec 64) :
    AArch64CopiesIndependent self mem function hook ↔
      ∀ i < 4, ∀ form : A64.PcForm, form.Matches (mem.load32 (wordAddr function i)) →
        form ∈ [A64.PcForm.adr, .adrp, .ldrLiteral] := by
  constructor
  · rintro (hrefused | hcopies) i hi form hmatch
    · exact absurd hrefused (not_refused _ _ _ _ _)
    by_contra hother
    -- a form that the rewriter does not know is copied
    have hmissed := aarch64_missed hmatch hother
    rw [not_or, not_or] at hmissed
    exact hcopies i hi ((aarch64_copiedVerbatim_iff rfl).mpr hmissed) ⟨form, hmatch⟩
  · intro h
    refine Or.inr fun i hi hcopied => ?_
    rintro ⟨form, hmatch⟩
    rcases (aarch64_copiedVerbatim_iff rfl).mp hcopied with ⟨hadr, hadrp, hldr⟩
    rcases aarch64_tests_iff.mpr ⟨form, h i hi form hmatch, hmatch⟩ with ht | ht | ht
    · exact hadr ht
    · exact hadrp ht
    · exact hldr ht

/-! ## A32 -/

section A32

variable {mem : Memory 32} {block : BitVec 32} {i : Nat} {ins : BitVec 32}

theorem aarch32_copiedVerbatim_iff (hins : mem.load32 (wordAddr block i) = ins) :
    CopiedVerbatim (rewriteAarch32Word mem block 3) ins i ↔
      ¬ isAarch32Adr ins ∧ ¬ isAarch32LdrLiteral ins := by
  constructor
  · intro hcopied
    have hround : rewriteAarch32Word mem block 3 (LHStream.init, LHStream.init) i =
        push (4 * (3 + 2)) (LHStream.init, LHStream.init) (aarch32Item mem block i) :=
      rewriteAarch32Word_eq _ (Nat.zero_le _) (by decide)
    have hsize := (aarch32Item_size mem block i).1
    have hnil := datum_eq_nil_of_copied hcopied hround (le_trans hsize (by decide))
    simp only [aarch32Item, hins] at hnil
    by_cases hadr : isAarch32Adr ins
    · rw [if_pos hadr] at hnil
      exact absurd (congrArg List.length hnil) (by simp [aarch32LoadItem])
    refine ⟨hadr, fun hldr => ?_⟩
    rw [if_neg hadr, if_pos hldr] at hnil
    exact absurd (congrArg List.length hnil) (by simp [aarch32LoadItem])
  · rintro ⟨hadr, hldr⟩ ⟨code, data⟩
    have hsub : ¬ isAarch32AdrSub ins := hadr
    simp only [rewriteAarch32Word, hins]
    rw [if_neg hadr, if_neg hsub, if_neg hldr]

/-- A copied word stands in the stub at its own place. -/
theorem aarch32_copiedVerbatim_stub (self : LHHooker 32) (hi : i < 3)
    (hcopied : CopiedVerbatim (rewriteAarch32Word mem block 3) (mem.load32 (wordAddr block i)) i) :
    let r := rewriteAArch32Block self mem block 3
    r.mem.load32 (wordAddr r.newBlock i) = mem.load32 (wordAddr block i) := by
  rcases (aarch32_copiedVerbatim_iff rfl).mp hcopied with ⟨hadr, hldr⟩
  have hitem : aarch32Item mem block i = copyItem (mem.load32 (wordAddr block i)) := by
    simp only [aarch32Item]
    rw [if_neg hadr, if_neg hldr]
  intro r
  rcases aarch32_fetch self (by decide : 3 ≤ 62) hi with ⟨d, _, hfetch, _⟩
  exact hfetch.trans (congrArg (fun item => item.word d) hitem)

/-- The masks match exactly two forms. -/
theorem aarch32_tests_iff :
    (isAarch32Adr ins ∨ isAarch32LdrLiteral ins) ↔
      ∃ form ∈ [A32.PcForm.adrAdd, .ldrLiteral], form.Matches ins := by
  rw [isAarch32Adr_iff, isAarch32LdrLiteral_iff]
  simp [A32.PcForm.Matches]

/-- The other forms differ from these two in some field. -/
theorem aarch32_missed {form : A32.PcForm} (h : form.Matches ins)
    (hother : form ∉ [A32.PcForm.adrAdd, .ldrLiteral]) :
    ¬ (isAarch32Adr ins ∨ isAarch32LdrLiteral ins) := by
  rw [isAarch32Adr_iff, isAarch32LdrLiteral_iff]
  -- most of them in the class bits
  have hclass {l : Nat} {s : Nat} {v : BitVec l} (hv : ins.extractLsb' s l = v)
      (hadd : ∃ i < 16, ∃ j < l, 16 + i = s + j ∧
        (0b1110001010001111#16).getLsbD i ≠ v.getLsbD j)
      (hldr : ∃ i < 8, ∃ j < l, 24 + i = s + j ∧ (0b11100101#8).getLsbD i ≠ v.getLsbD j) :
      ¬ (ins.extractLsb' 16 16 = 0b1110001010001111#16 ∨
        ins.extractLsb' 24 8 = 0b11100101#8 ∧ ins.extractLsb' 16 7 = 0b0011111#7) := by
    rintro (hupper | ⟨hop, _⟩)
    · exact fields_conflict hupper hv hadd
    · exact fields_conflict hop hv hldr
  cases form with
  | adrAdd => simp at hother
  | ldrLiteral => simp at hother
  | branch => exact hclass h (by decide) (by decide)
  | bxPC => exact hclass h.2 (by decide) (by decide)
  | blx => exact hclass h.2.1 (by decide) (by decide)
  | dataProcessingImm =>
      rcases h with ⟨_, hspace, _, _, hadd⟩
      rintro (hupper | ⟨hop, _⟩)
      · exact hadd hupper
      · exact fields_conflict hop hspace (by decide)
  | dataProcessingReg | loadStoreReg | loadStoreExtra | pushPC =>
      exact hclass h.2.1 (by decide) (by decide)
  | loadStoreImm =>
      rcases h with ⟨_, hspace, _, hldr⟩
      rintro (hupper | hfields)
      · exact fields_conflict hupper hspace (by decide)
      · exact hldr hfields
  | storePC =>
      rcases h with ⟨_, hspace, _, _, hstore, _⟩
      rintro (hupper | ⟨_, hload⟩)
      · exact fields_conflict hupper hspace (by decide)
      · exact fields_conflict hload hstore (by decide)
  | coprocessor => exact hclass h.1 (by decide) (by decide)
  | preload => exact hclass h.1 (by decide) (by decide)

end A32

/-- The same on AArch32. -/
def AArch32CopiesIndependent (self : LHHooker 32) (mem : Memory 32) (function hook : BitVec 32) :
    Prop :=
  Refused aarch32 self mem function hook ∨
    ∀ i < 3, CopiedVerbatim (rewriteAarch32Word mem function 3)
      (mem.load32 (wordAddr function i)) i →
        ¬ A32.PositionDependent (mem.load32 (wordAddr function i))

theorem aarch32_copiesIndependent_iff (self : LHHooker 32) (mem : Memory 32)
    (function hook : BitVec 32) :
    AArch32CopiesIndependent self mem function hook ↔
      ∀ i < 3, ∀ form : A32.PcForm, form.Matches (mem.load32 (wordAddr function i)) →
        form ∈ [A32.PcForm.adrAdd, .ldrLiteral] := by
  constructor
  · rintro (hrefused | hcopies) i hi form hmatch
    · exact absurd hrefused (not_refused _ _ _ _ _)
    by_contra hother
    have hmissed := aarch32_missed hmatch hother
    rw [not_or] at hmissed
    exact hcopies i hi ((aarch32_copiedVerbatim_iff rfl).mpr hmissed) ⟨form, hmatch⟩
  · intro h
    refine Or.inr fun i hi hcopied => ?_
    rintro ⟨form, hmatch⟩
    rcases (aarch32_copiedVerbatim_iff rfl).mp hcopied with ⟨hadr, hldr⟩
    rcases aarch32_tests_iff.mpr ⟨form, h i hi form hmatch, hmatch⟩ with ht | ht
    · exact hadr ht
    · exact hldr ht

/-! ## Both -/

/-- What is copied into the stub does not depend on where it is, or the call is refused. -/
def CopiesIndependent : (target : Target) → LHHooker target.wordBits → Memory target.wordBits →
    BitVec target.wordBits → BitVec target.wordBits → Prop
  | .aarch64 => AArch64CopiesIndependent
  | .armv7 => AArch32CopiesIndependent

/-- If the word reads the PC, then in a form that the rewriter knows. -/
def Known : Target → BitVec 32 → Prop
  | .aarch64, ins => ∀ form : A64.PcForm, form.Matches ins →
      form ∈ [A64.PcForm.adr, .adrp, .ldrLiteral]
  | .armv7, ins => ∀ form : A32.PcForm, form.Matches ins →
      form ∈ [A32.PcForm.adrAdd, .ldrLiteral]

/-- What is copied is independent of its address exactly when the block reads the PC in no other
form than those that the rewriter knows. -/
theorem hook_copiesIndependent_iff (target : Target) (self : LHHooker target.wordBits)
    (mem : Memory target.wordBits) (function hook : BitVec target.wordBits) :
    CopiesIndependent target self mem function hook ↔
      ∀ i < (archOf target).blockSize, Known target (mem.load32 (wordAddr function i)) := by
  cases target with
  | aarch64 => exact aarch64_copiesIndependent_iff self mem function hook
  | armv7 => exact aarch32_copiesIndependent_iff self mem function hook

/-- A function that starts with `b #4`. -/
theorem hook_not_copiesIndependent :
    ¬ CopiesIndependent .aarch64 ⟨0x20000, 0xa000, 0, by decide, by decide⟩
      (Memory.write (fun _ => 0) 0x1000 [0x01, 0x00, 0x00, 0x14]) 0x1000 0x30000 := by
  intro h
  have hknown := (aarch64_copiesIndependent_iff _ _ _ _).mp h
  have hb : A64.PcForm.b.Matches ((Memory.write (fun _ => 0) 0x1000
      [0x01, 0x00, 0x00, 0x14] : Memory 64).load32 (wordAddr 0x1000 0)) := by
    show _ = _
    decide
  exact absurd (hknown 0 (by decide) .b hb) (by decide)

end LeafHook
end KnShim
