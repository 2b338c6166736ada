import KnShim.LeafHook.Chain

/-!
# LeafHook.StubLayout — where the words and the data of a stub are

A literal load is made for a distance that is computed from how far the two streams are filled,
before the stub has its size.  `SoundLayout` says what makes these distances right: no write is
dropped, each load reads the datum of its own round, and the data are apart from each other and
inside what is allocated.  `stubLayout_sound` is about all blocks for which the streams have room.
-/

namespace KnShim
namespace LeafHook

open Lib

variable {w : Nat}

/-! ## Literal loads -/

/-- What a literal load reads, and the distance that its immediate stands for. -/
structure Literal (w : Nat) where
  addr : BitVec w
  size : Nat
  distance : Int

/-- The literal load at `pc`.  The immediate counts words. -/
def aarch64Literal (pc : BitVec 64) (word : BitVec 32) : Option (Literal 64) :=
  match A64.decode word with
  | some (.ldrLiteral x _ imm) => some ⟨A64.literalAddr pc imm, A64.literalSize x, 4 * imm.toInt⟩
  | _ => none

/-- The literal load at `pc`.  The immediate counts bytes, from 8 ahead. -/
def aarch32Literal (pc : BitVec 32) (word : BitVec 32) : Option (Literal 32) :=
  match A32.decode word with
  | some (.ldrLiteral u _ imm) =>
      some ⟨A32.literalAddr pc u imm, 4, if u then 8 + imm.toNat else 8 - imm.toNat⟩
  | _ => none

/-- How an architecture loads literals and jumps. -/
structure Isa (w : Nat) where
  literal : BitVec w → BitVec 32 → Option (Literal w)
  jumps : Memory w → BitVec w → BitVec w → Prop

/-! ## The streams of a rewriting -/

/-- The streams after each number of rounds and behind the jump back, and the size of the datum
that each round has; the jump back is the last round. -/
structure Streams where
  rounds : Nat → LHStream × LHStream
  final : LHStream × LHStream
  datumSize : Nat → Nat

namespace Streams

/-- Where in the stub the datum of a round begins. -/
def dataOffset (s : Streams) (i : Nat) : Nat := s.final.1.tell + (s.rounds i).2.tell

def dataAddr (s : Streams) (newBlock : BitVec w) (i : Nat) : BitVec w :=
  newBlock + BitVec.ofNat w (s.dataOffset i)

end Streams

/-- The size of the datum for an instruction, or 0 if it is copied. -/
def aarch64DatumSize (ins : BitVec 32) : Nat :=
  if isAarch64Adr ins then 8
  else if isAarch64Adrp ins then 8
  else if isAarch64LdrLiteral ins then
    if aarch64LdrLiteralDecodeX ins ≠ 0 then 8 else 4
  else 0

def aarch32DatumSize (ins : BitVec 32) : Nat :=
  if isAarch32Adr ins then 4
  else if isAarch32AdrSub ins then 4
  else if isAarch32LdrLiteral ins then 4
  else 0

def aarch64Streams (mem : Memory 64) (oldBlock : BitVec 64) (n : Nat) : Streams where
  rounds := aarch64Rounds mem oldBlock n
  final := aarch64Final mem oldBlock n
  datumSize i := if i < n then aarch64DatumSize (mem.load32 (wordAddr oldBlock i)) else 8

def aarch32Streams (mem : Memory 32) (oldBlock : BitVec 32) (n : Nat) : Streams where
  rounds := aarch32Rounds mem oldBlock n
  final := aarch32Final mem oldBlock n
  datumSize i := if i < n then aarch32DatumSize (mem.load32 (wordAddr oldBlock i)) else 4

/-- The stub `r` of a block of `n` words. -/
structure SoundLayout (isa : Isa w) (s : Streams) (self : LHHooker w) (mem : Memory w)
    (oldBlock : BitVec w) (n : Nat) (r : Rewritten w) : Prop where
  /-- The streams are what is copied to the stub area. -/
  copied : r = copyToNewBlock self mem s.final.1 s.final.2
  codeSize : s.final.1.tell = 4 * (n + 2)
  /-- Every write of a round takes place, and those of the jump back. -/
  written : ∀ i < n, (s.rounds (i + 1)).1.tell = (s.rounds i).1.tell + 4 ∧
    (s.rounds (i + 1)).2.tell = (s.rounds i).2.tell + s.datumSize i
  jumpWritten : s.final.1.tell = (s.rounds n).1.tell + 8 ∧
    s.final.2.tell = (s.rounds n).2.tell + s.datumSize n
  /-- The other words are copied. -/
  copies : ∀ i < n, s.datumSize i = 0 →
    r.mem.load32 (wordAddr r.newBlock i) = mem.load32 (wordAddr oldBlock i)
  /-- A load reads from where the datum of its round begins, as far as its immediate says. -/
  literal : ∀ i ≤ n, s.datumSize i ≠ 0 →
    isa.literal (wordAddr r.newBlock i) (r.mem.load32 (wordAddr r.newBlock i)) =
      some ⟨s.dataAddr r.newBlock i, s.datumSize i, (s.dataOffset i : Int) - (4 * i : Nat)⟩
  /-- What is there is what the round has written. -/
  datum : ∀ i < n, r.mem.read (s.dataAddr r.newBlock i) (s.datumSize i) =
    (s.rounds (i + 1)).2.data.drop (s.rounds i).2.tell
  disjoint : ∀ i j, i < j → j ≤ n →
    Memory.Apart (s.dataAddr r.newBlock i) (s.datumSize i)
      (s.dataAddr r.newBlock j) (s.datumSize j)
  disjointCode : ∀ i ≤ n,
    Memory.Apart r.newBlock (4 * (n + 2)) (s.dataAddr r.newBlock i) (s.datumSize i)
  /-- The allocation is what the used size has grown by. -/
  starts : r.newBlock = self.rwxBlock + BitVec.ofNat w self.rwxBlockUsed
  inside : ∀ i ≤ n,
    self.rwxBlockUsed + s.dataOffset i + s.datumSize i ≤ r.hooker.rwxBlockUsed
  jump : isa.jumps r.mem (wordAddr r.newBlock n) (wordAddr oldBlock n)

/-! ## The layout of the items -/

/-- The item has a datum of the size, and is made to load it, if it has one. -/
structure Isa.Emits (isa : Isa w) (item : Item) (size : Nat) : Prop where
  length : item.datum.length = size
  words : size % 4 = 0
  literal : size ≠ 0 → ∀ (pc : BitVec w) (d : Nat), pc.toNat % 4 = 0 → 8 ≤ d →
    d ≤ 2 * streamMaxSize → d % 4 = 0 →
      isa.literal pc (item.word d) = some ⟨pc + BitVec.ofNat w d, size, d⟩

/-- The streams hold these items, one for each word of the block, a jump and a branch. -/
structure Describes (isa : Isa w) (mem : Memory w) (oldBlock : BitVec w) (n : Nat)
    (items : List Item) (s : Streams) : Prop where
  length : items.length = n + 2
  rounds : ∀ i ≤ n, Emitted (4 * (n + 2)) (items.take i) (s.rounds i)
  final : Emitted (4 * (n + 2)) items s.final
  emits : ∀ i ≤ n, ∀ item, items[i]? = some item → isa.Emits item (s.datumSize i)
  branch : ∀ item, items[n + 1]? = some item → item.datum = []
  words : ∀ item ∈ items, item.datum.length % 4 = 0
  copies : ∀ i < n, ∀ item, items[i]? = some item → s.datumSize i = 0 →
    ∀ d, item.word d = mem.load32 (wordAddr oldBlock i)

namespace Describes

variable {isa : Isa w} {mem : Memory w} {oldBlock : BitVec w} {n i j : Nat} {items : List Item}
  {s : Streams} (h : Describes isa mem oldBlock n items s)
include h

theorem get (hi : i < n + 2) : ∃ item, items[i]? = some item :=
  ⟨_, List.getElem?_eq_getElem (by rwa [h.length])⟩

theorem code_tell (hi : i ≤ n) : (s.rounds i).1.tell = 4 * i := by
  rw [(h.rounds i hi).code_tell, List.length_take_of_le (by rw [h.length]; omega)]

theorem data_tell (hi : i ≤ n) :
    (s.rounds i).2.tell = (LiteralPool.dataOf (items.take i)).length :=
  (h.rounds i hi).data_tell

theorem final_code_tell : s.final.1.tell = 4 * (n + 2) := by
  rw [h.final.code_tell, h.length]

theorem final_data_tell : s.final.2.tell = (s.rounds n).2.tell + s.datumSize n := by
  rcases h.get (Nat.lt_add_of_pos_right (by decide)) with ⟨jump, hjump⟩
  rcases h.get (Nat.lt_succ_self (n + 1)) with ⟨branch, hbranch⟩
  have hall : items.take (n + 2) = items := List.take_of_length_le (Nat.le_of_eq h.length)
  have hdata : LiteralPool.dataOf items =
      LiteralPool.dataOf (items.take n) ++ jump.datum ++ branch.datum := by
    rw [← LiteralPool.dataOf_take_succ hjump, ← LiteralPool.dataOf_take_succ hbranch, hall]
  rw [h.final.data_tell, hdata, h.branch branch hbranch, List.append_nil, List.length_append,
    (h.emits n (Nat.le_refl n) jump hjump).length, h.data_tell (Nat.le_refl n)]

theorem written (hi : i < n) :
    (s.rounds (i + 1)).1.tell = (s.rounds i).1.tell + 4 ∧
      (s.rounds (i + 1)).2.tell = (s.rounds i).2.tell + s.datumSize i := by
  have hle : i ≤ n := Nat.le_of_lt hi
  rcases h.get (by omega : i < n + 2) with ⟨item, hitem⟩
  constructor
  · rw [h.code_tell hi, h.code_tell hle]
    rfl
  · rw [h.data_tell hi, h.data_tell hle, LiteralPool.dataOf_take_succ hitem, List.length_append,
      (h.emits i hle item hitem).length]

/-- The datum is at the distance that its word was made for. -/
theorem dataOffset_eq (hi : i ≤ n) : s.dataOffset i = 4 * i + LiteralPool.dist items i := by
  rw [Streams.dataOffset, h.final_code_tell, h.data_tell hi, LiteralPool.dist, h.length]
  omega

theorem dataAddr_eq (newBlock : BitVec w) (hi : i ≤ n) :
    s.dataAddr newBlock i =
      wordAddr newBlock i + BitVec.ofNat w (LiteralPool.dist items i) := by
  rw [Streams.dataAddr, h.dataOffset_eq hi, BitVec.ofNat_add, ← BitVec.add_assoc, wordAddr]

theorem dist_bounds (hi : i ≤ n) :
    8 ≤ LiteralPool.dist items i ∧ LiteralPool.dist items i ≤ 2 * streamMaxSize ∧
      LiteralPool.dist items i % 4 = 0 := by
  rcases h.get (by omega : i < n + 2) with ⟨item, hitem⟩
  refine ⟨?_, ?_, LiteralPool.dist_aligned fun it hit => h.words it (List.mem_of_mem_take hit)⟩
  · -- the two instructions of the jump back are between
    rw [LiteralPool.dist, h.length]
    omega
  · have hle := LiteralPool.dist_add_le hitem
    have hsize := h.final.assemble_length_le
    omega

/-- A datum ends where the next ones begin, or the stub. -/
theorem dataOffset_add_le (hij : i < j) (hj : j ≤ n) :
    s.dataOffset i + s.datumSize i ≤ s.dataOffset j := by
  have hi : i ≤ n := by omega
  rcases h.get (by omega : i < n + 2) with ⟨item, hitem⟩
  have hle := LiteralPool.dataOf_take_add_le hitem hij
  rw [(h.emits i hi item hitem).length] at hle
  rw [Streams.dataOffset, Streams.dataOffset, h.data_tell hi, h.data_tell hj]
  omega

theorem dataOffset_add_le_length (hi : i ≤ n) :
    s.dataOffset i + s.datumSize i ≤ (LiteralPool.assemble items).length := by
  rcases h.get (by omega : i < n + 2) with ⟨item, hitem⟩
  have hle := LiteralPool.dist_add_le hitem
  rwa [(h.emits i hi item hitem).length, ← h.dataOffset_eq hi] at hle

/-- What a round has left, once the streams have been copied. -/
theorem fetch (self : LHHooker w) (hw : 9 ≤ w) (hi : i ≤ n) {item : Item}
    (hitem : items[i]? = some item) :
    let r := copyToNewBlock self mem s.final.1 s.final.2
    r.mem.load32 (wordAddr r.newBlock i) = item.word (LiteralPool.dist items i) ∧
      r.mem.read (s.dataAddr r.newBlock i) (s.datumSize i) = item.datum := by
  intro r
  rw [h.dataAddr_eq _ hi, ← (h.emits i hi item hitem).length]
  exact h.final.fetch_item (by rw [h.length]) self mem hw hitem

/-- The stub is in one piece, and as large as what was allocated for it. -/
theorem placed (self : LHHooker w) (hw : 9 ≤ w) :
    let r := copyToNewBlock self mem s.final.1 s.final.2
    r.newBlock.toNat % 4 = 0 ∧
      r.mem.read r.newBlock (LiteralPool.assemble items).length = LiteralPool.assemble items ∧
      r.hooker.rwxBlockUsed = self.rwxBlockUsed + (LiteralPool.assemble items).length := by
  intro r
  have hmemory := h.final.assemble_le_memory hw
  have haligned := self.allocRwx_aligned (LiteralPool.assemble items).length (by omega)
  have hused := self.allocRwx_used (assemble_length_aligned h.words)
  have hput : r = putStub self mem (LiteralPool.assemble items) :=
    h.final.putStub (by rw [h.length]) self mem hw
  rw [hput]
  exact ⟨haligned, Memory.read_write_self _ _ hmemory, hused⟩

theorem sound (self : LHHooker w) (hw : 9 ≤ w)
    (hjump : ∀ m base, base.toNat % 4 = 0 →
      m.read base (LiteralPool.assemble items).length = LiteralPool.assemble items →
      isa.jumps m (wordAddr base n) (wordAddr oldBlock n)) :
    SoundLayout isa s self mem oldBlock n (copyToNewBlock self mem s.final.1 s.final.2) := by
  rcases h.placed self hw with ⟨haligned, hstub, hused⟩
  have hmemory := h.final.assemble_le_memory hw
  constructor
  case copied => rfl
  case codeSize => exact h.final_code_tell
  case written => exact fun i hi => h.written hi
  case jumpWritten =>
      refine ⟨?_, h.final_data_tell⟩
      rw [h.final_code_tell, h.code_tell (Nat.le_refl n)]
      omega
  case copies =>
      intro i hi hzero
      rcases h.get (by omega : i < n + 2) with ⟨item, hitem⟩
      rw [(h.fetch self hw (Nat.le_of_lt hi) hitem).1, h.copies i hi item hitem hzero]
  case literal =>
      intro i hi hsize
      rcases h.get (by omega : i < n + 2) with ⟨item, hitem⟩
      rcases h.dist_bounds hi with ⟨hge, hle, hwords⟩
      have hpc := wordAddr_aligned (by omega) haligned i
      have hdist : (s.dataOffset i : Int) - (4 * i : Nat) = LiteralPool.dist items i := by
        have hoffset := h.dataOffset_eq hi
        omega
      rw [(h.fetch self hw hi hitem).1, h.dataAddr_eq _ hi, hdist]
      exact (h.emits i hi item hitem).literal hsize _ _ hpc hge hle hwords
  case datum =>
      intro i hi
      have hle : i ≤ n := Nat.le_of_lt hi
      rcases h.get (by omega : i < n + 2) with ⟨item, hitem⟩
      rw [(h.fetch self hw hle hitem).2, (h.rounds (i + 1) hi).data, h.data_tell hle,
        LiteralPool.dataOf_take_succ hitem, List.drop_left]
  case disjoint =>
      intro i j hij hj
      refine Memory.apart_offsets _ (h.dataOffset_add_le hij hj) ?_
      exact le_trans (h.dataOffset_add_le_length hj) hmemory
  case disjointCode =>
      intro i hi
      have hcode : 0 + 4 * (n + 2) ≤ s.dataOffset i := by
        rw [Streams.dataOffset, h.final_code_tell]
        omega
      have happart := Memory.apart_offsets
        (copyToNewBlock self mem s.final.1 s.final.2).newBlock hcode
        (le_trans (h.dataOffset_add_le_length hi) hmemory)
      rwa [BitVec.add_zero] at happart
  case starts => rfl
  case inside =>
      intro i hi
      have hle := h.dataOffset_add_le_length hi
      omega
  case jump => exact hjump _ _ haligned hstub

end Describes

/-- Items that are emitted in the rounds of the loop, and a jump back. -/
theorem describes_of_rounds {isa : Isa w} {mem : Memory w} {oldBlock : BitVec w} {n : Nat}
    {s : Streams} {item : Nat → Item} {jump : Item} {branch : BitVec 32}
    (hrounds : ∀ i ≤ n, Emitted (4 * (n + 2)) ((List.range i).map item) (s.rounds i))
    (hfinal : Emitted (4 * (n + 2)) ((List.range n).map item ++ [jump, copyItem branch]) s.final)
    (hitem : ∀ i < n, isa.Emits (item i) (s.datumSize i)) (hjump : isa.Emits jump (s.datumSize n))
    (hcopies : ∀ i < n, s.datumSize i = 0 → ∀ d, (item i).word d = mem.load32 (wordAddr oldBlock i)) :
    Describes isa mem oldBlock n ((List.range n).map item ++ [jump, copyItem branch]) s := by
  have hget : ∀ i < n, ((List.range n).map item ++ [jump, copyItem branch])[i]? = some (item i) := by
    intro i hi
    rw [List.getElem?_append_left (by simpa using hi)]
    simp [hi]
  have hlast : ((List.range n).map item ++ [jump, copyItem branch])[n]? = some jump := by
    simp
  constructor
  case length => simp
  case rounds =>
      intro i hi
      have htake : ((List.range n).map item ++ [jump, copyItem branch]).take i =
          (List.range i).map item := by
        rw [List.take_append_of_le_length (by simpa using hi), ← List.map_take, List.take_range,
          Nat.min_eq_left hi]
      rw [htake]
      exact hrounds i hi
  case final => exact hfinal
  case emits =>
      intro i hi it hit
      rcases Nat.lt_or_eq_of_le hi with hlt | rfl
      · rw [hget i hlt] at hit
        cases hit
        exact hitem i hlt
      · rw [hlast] at hit
        cases hit
        exact hjump
  case branch =>
      intro it hit
      simp at hit
      rw [← hit]
      rfl
  case words =>
      intro it hit
      rcases List.mem_append.mp hit with hmoved | hback
      · rcases List.mem_map.mp hmoved with ⟨i, hi, rfl⟩
        have hemits := hitem i (List.mem_range.mp hi)
        rw [hemits.length]
        exact hemits.words
      · simp only [List.mem_cons, List.not_mem_nil, or_false] at hback
        rcases hback with rfl | rfl
        · rw [hjump.length]
          exact hjump.words
        · rfl
  case copies =>
      intro i hi it hit hzero
      rw [hget i hi] at hit
      cases hit
      exact hcopies i hi hzero

/-- A word that is copied has no datum. -/
theorem emits_copyItem (isa : Isa w) (ins : BitVec 32) : isa.Emits (copyItem ins) 0 where
  length := rfl
  words := rfl
  literal := fun h => absurd rfl h

/-! ## AArch64 -/

def aarch64Isa : Isa 64 := ⟨aarch64Literal, AArch64Jumps⟩

section AArch64

variable {mem : Memory 64} {oldBlock : BitVec 64} {n i : Nat}

theorem emits_aarch64LoadItem (x rt : BitVec 32) {datum : Bytes}
    (hdatum : datum.length = A64.literalSize (x.setWidth 1 = 0b1#1)) :
    aarch64Isa.Emits (aarch64LoadItem x rt datum) (A64.literalSize (x.setWidth 1 = 0b1#1)) where
  length := hdatum
  words := by
    rw [A64.literalSize]
    split <;> rfl
  literal := by
    intro _ pc d _ _ hle hwords
    have hd : d < 2 ^ 20 := lt_of_le_of_lt hle (by decide)
    have hfield : (BitVec.ofNat 19 (d / 4)).toInt = (d / 4 : Nat) :=
      toInt_ofNat_of_lt (by omega)
    have hdist : 4 * ((d / 4 : Nat) : Int) = d := by omega
    simp only [aarch64Isa, aarch64Literal, decode_aarch64LoadItem x rt datum hd]
    rw [A64.literalAddr_ofNat pc hd hwords, hfield, hdist]

theorem aarch64Item_emits (mem : Memory 64) (oldBlock : BitVec 64) (i : Nat) :
    aarch64Isa.Emits (aarch64Item mem oldBlock i)
      (aarch64DatumSize (mem.load32 (wordAddr oldBlock i))) := by
  generalize hw : mem.load32 (wordAddr oldBlock i) = ins
  by_cases hadr : isAarch64Adr ins
  · simp only [aarch64Item, aarch64DatumSize, hw, if_pos hadr]
    exact emits_aarch64LoadItem 1 _ (toLE_length _ _)
  by_cases hadrp : isAarch64Adrp ins
  · simp only [aarch64Item, aarch64DatumSize, hw, if_neg hadr, if_pos hadrp]
    exact emits_aarch64LoadItem 1 _ (toLE_length _ _)
  by_cases hldr : isAarch64LdrLiteral ins
  · simp only [aarch64Item, aarch64DatumSize, hw, if_neg hadr, if_neg hadrp, if_pos hldr]
    have hx : (aarch64LdrLiteralDecodeX ins).setWidth 1 = ins.extractLsb' 30 1 := by
      rw [aarch64LdrLiteralDecodeX_eq, setWidth_setWidth_self _ (by decide)]
    rw [aarch64LdrLiteral_size, ← hx]
    exact emits_aarch64LoadItem _ _ (Memory.read_length _ _ _)
  · simp only [aarch64Item, aarch64DatumSize, hw, if_neg hadr, if_neg hadrp, if_neg hldr]
    exact emits_copyItem aarch64Isa ins

/-- Without a datum the word is copied. -/
theorem aarch64Item_copies (h : aarch64DatumSize (mem.load32 (wordAddr oldBlock i)) = 0) (d : Nat) :
    (aarch64Item mem oldBlock i).word d = mem.load32 (wordAddr oldBlock i) := by
  generalize hw : mem.load32 (wordAddr oldBlock i) = ins at h
  rw [aarch64DatumSize] at h
  by_cases hadr : isAarch64Adr ins
  · simp [hadr] at h
  by_cases hadrp : isAarch64Adrp ins
  · simp [hadr, hadrp] at h
  by_cases hldr : isAarch64LdrLiteral ins
  · simp only [if_neg hadr, if_neg hadrp, if_pos hldr] at h
    split at h <;> cases h
  · simp only [aarch64Item, hw, if_neg hadr, if_neg hadrp, if_neg hldr]
    rfl

theorem aarch64_describes (mem : Memory 64) (oldBlock : BitVec 64) (hn : n ≤ 31) :
    Describes aarch64Isa mem oldBlock n (aarch64Items mem oldBlock n)
      (aarch64Streams mem oldBlock n) := by
  rcases aarch64_streams mem oldBlock hn with ⟨hrounds, hfinal⟩
  have hmoved : ∀ i < n, (aarch64Streams mem oldBlock n).datumSize i =
      aarch64DatumSize (mem.load32 (wordAddr oldBlock i)) := fun _ hi => if_pos hi
  have hback : (aarch64Streams mem oldBlock n).datumSize n = 8 := if_neg (Nat.lt_irrefl n)
  refine describes_of_rounds hrounds hfinal ?_ ?_ ?_
  · intro i hi
    rw [hmoved i hi]
    exact aarch64Item_emits mem oldBlock i
  · rw [hback]
    exact emits_aarch64LoadItem 1 16 (toLE_length _ _)
  · intro i hi hzero
    rw [hmoved i hi] at hzero
    exact aarch64Item_copies hzero

theorem aarch64_sound (self : LHHooker 64) (mem : Memory 64) (oldBlock : BitVec 64) (hn : n ≤ 31) :
    SoundLayout aarch64Isa (aarch64Streams mem oldBlock n) self mem oldBlock n
      (rewriteAArch64Block self mem oldBlock n) := by
  have hdescribes := aarch64_describes mem oldBlock hn
  have hall : aarch64Items mem oldBlock n = (List.range n).map (aarch64Item mem oldBlock) ++
      (aarch64Jump (wordAddr oldBlock n) ++ []) := by
    rw [List.append_nil]
    rfl
  refine hdescribes.sound self (by decide) (fun m base _ hmem => ?_)
  have hjumps := aarch64_jumps hmem hdescribes.words hdescribes.final.assemble_length_le hall
  rwa [List.length_map, List.length_range] at hjumps

end AArch64

/-! ## AArch32 -/

def aarch32Isa : Isa 32 := ⟨aarch32Literal, AArch32Jumps⟩

section AArch32

variable {mem : Memory 32} {oldBlock : BitVec 32} {n i : Nat}

theorem emits_aarch32LoadItem (rt datum : BitVec 32) :
    aarch32Isa.Emits (aarch32LoadItem rt datum) 4 where
  length := toLE_length _ _
  words := rfl
  literal := by
    intro _ pc d hpc hge hle _
    have hd : d < 2 ^ 12 := lt_of_le_of_lt hle (by decide)
    have hfield : (BitVec.ofNat 12 (d - 8)).toNat = d - 8 := by
      rw [BitVec.toNat_ofNat, Nat.mod_eq_of_lt (by omega)]
    have hdist : 8 + ((d - 8 : Nat) : Int) = d := by omega
    simp only [aarch32Isa, aarch32Literal, decode_aarch32LoadItem rt datum hge, if_true]
    rw [A32.literalAddr_ofNat hpc ⟨hge, hd⟩, hfield, hdist]

theorem aarch32Item_emits (mem : Memory 32) (oldBlock : BitVec 32) (i : Nat) :
    aarch32Isa.Emits (aarch32Item mem oldBlock i)
      (aarch32DatumSize (mem.load32 (wordAddr oldBlock i))) := by
  generalize hw : mem.load32 (wordAddr oldBlock i) = ins
  by_cases hadr : isAarch32Adr ins
  · simp only [aarch32Item, aarch32DatumSize, hw, if_pos hadr]
    exact emits_aarch32LoadItem _ _
  have hsub : ¬ isAarch32AdrSub ins := hadr
  by_cases hldr : isAarch32LdrLiteral ins
  · simp only [aarch32Item, aarch32DatumSize, hw, if_neg hadr, if_neg hsub, if_pos hldr]
    exact emits_aarch32LoadItem _ _
  · simp only [aarch32Item, aarch32DatumSize, hw, if_neg hadr, if_neg hsub, if_neg hldr]
    exact emits_copyItem aarch32Isa ins

theorem aarch32Item_copies (h : aarch32DatumSize (mem.load32 (wordAddr oldBlock i)) = 0) (d : Nat) :
    (aarch32Item mem oldBlock i).word d = mem.load32 (wordAddr oldBlock i) := by
  generalize hw : mem.load32 (wordAddr oldBlock i) = ins at h
  rw [aarch32DatumSize] at h
  by_cases hadr : isAarch32Adr ins
  · simp [hadr] at h
  have hsub : ¬ isAarch32AdrSub ins := hadr
  by_cases hldr : isAarch32LdrLiteral ins
  · simp [hadr, hsub, hldr] at h
  · simp only [aarch32Item, hw, if_neg hadr, if_neg hldr]
    rfl

theorem aarch32_describes (mem : Memory 32) (oldBlock : BitVec 32) (hn : n ≤ 62) :
    Describes aarch32Isa mem oldBlock n (aarch32Items mem oldBlock n)
      (aarch32Streams mem oldBlock n) := by
  rcases aarch32_streams mem oldBlock hn with ⟨hrounds, hfinal⟩
  have hmoved : ∀ i < n, (aarch32Streams mem oldBlock n).datumSize i =
      aarch32DatumSize (mem.load32 (wordAddr oldBlock i)) := fun _ hi => if_pos hi
  have hback : (aarch32Streams mem oldBlock n).datumSize n = 4 := if_neg (Nat.lt_irrefl n)
  refine describes_of_rounds hrounds hfinal ?_ ?_ ?_
  · intro i hi
    rw [hmoved i hi]
    exact aarch32Item_emits mem oldBlock i
  · rw [hback]
    exact emits_aarch32LoadItem 12 _
  · intro i hi hzero
    rw [hmoved i hi] at hzero
    exact aarch32Item_copies hzero

theorem aarch32_sound (self : LHHooker 32) (mem : Memory 32) (oldBlock : BitVec 32) (hn : n ≤ 62) :
    SoundLayout aarch32Isa (aarch32Streams mem oldBlock n) self mem oldBlock n
      (rewriteAArch32Block self mem oldBlock n) := by
  have hdescribes := aarch32_describes mem oldBlock hn
  have hall : aarch32Items mem oldBlock n = (List.range n).map (aarch32Item mem oldBlock) ++
      (aarch32Jump (wordAddr oldBlock n) ++ []) := by
    rw [List.append_nil]
    rfl
  refine hdescribes.sound self (by decide) (fun m base hbase hmem => ?_)
  have hjumps := aarch32_jumps hbase hmem hdescribes.final.assemble_length_le hall
  rwa [List.length_map, List.length_range] at hjumps

end AArch32

/-! ## Both architectures -/

def isaOf : (target : Target) → Isa target.wordBits
  | .aarch64 => aarch64Isa
  | .armv7 => aarch32Isa

def streamsOf : (target : Target) → Memory target.wordBits → BitVec target.wordBits → Nat → Streams
  | .aarch64 => aarch64Streams
  | .armv7 => aarch32Streams

/-- The words of the largest block for which the streams have room, whatever it holds. -/
def maxBlockSize : Target → Nat
  | .aarch64 => 31
  | .armv7 => 62

/-- The layout of every stub is sound. -/
theorem stubLayout_sound (target : Target) (self : LHHooker target.wordBits)
    (mem : Memory target.wordBits) (oldBlock : BitVec target.wordBits) {n : Nat}
    (hn : n ≤ maxBlockSize target) :
    SoundLayout (isaOf target) (streamsOf target mem oldBlock n) self mem oldBlock n
      ((archOf target).rewriteBlock self mem oldBlock n) := by
  cases target with
  | aarch64 => exact aarch64_sound self mem oldBlock hn
  | armv7 => exact aarch32_sound self mem oldBlock hn

/-- A block of the largest size, of `adr x0, #0` and nothing else. -/
theorem stubLayout_sound_adr :
    let mem : Memory 64 := fun p => if p.toNat % 4 = 3 then 0x10 else 0
    let self : LHHooker 64 := ⟨0x20000, 0xa000, 0, by decide, by decide⟩
    SoundLayout aarch64Isa (aarch64Streams mem 0x1000 31) self mem 0x1000 31
      (rewriteAArch64Block self mem 0x1000 31) :=
  stubLayout_sound .aarch64 _ _ _ (by decide)

end LeafHook
end KnShim
