import KnShim.LeafHook.Stream
import KnShim.Lib.LiteralPool

/-!
# LeafHook.Stub — the two streams make a stub with a literal pool

Whatever the architecture, rewriting a block pushes one item after the other: a word to the code
stream and its datum to the data stream.  `Emitted` is the state of the streams after some items,
`Emitted.foldl` carries it through the loop, and `Emitted.stub` is what ends up in memory.
-/

namespace KnShim
namespace LeafHook

open Lib

/-- A word that is copied as it is. -/
def copyItem (ins : BitVec 32) : Item := ⟨fun _ => ins, []⟩

/-- The word and the datum of an item, appended to the streams. -/
def push (codeSize : Nat) (streams : LHStream × LHStream) (item : Item) : LHStream × LHStream :=
  (streams.1.write32 (item.word (codeSize - streams.1.tell + streams.2.tell)),
    streams.2.write item.datum)

/-- The streams hold the code and the data of the items. -/
structure Emitted (codeSize : Nat) (items : List Item) (streams : LHStream × LHStream) : Prop where
  code : streams.1.data = LiteralPool.codeOf (LiteralPool.words codeSize 0 0 items)
  data : streams.2.data = LiteralPool.dataOf items

namespace Emitted

variable {codeSize : Nat} {items : List Item} {streams : LHStream × LHStream}

theorem init (codeSize : Nat) : Emitted codeSize [] (LHStream.init, LHStream.init) := ⟨rfl, rfl⟩

theorem code_tell (h : Emitted codeSize items streams) : streams.1.tell = 4 * items.length := by
  rw [LHStream.tell, h.code, LiteralPool.codeOf_length, LiteralPool.words_length]

theorem data_tell (h : Emitted codeSize items streams) :
    streams.2.tell = (LiteralPool.dataOf items).length := by
  rw [LHStream.tell, h.data]

/-- One item more, when both streams have room for it. -/
theorem push (h : Emitted codeSize items streams) (item : Item)
    (hcode : 4 * items.length + 4 ≤ streamMaxSize)
    (hdata : (LiteralPool.dataOf items).length + item.datum.length ≤ streamMaxSize) :
    Emitted codeSize (items ++ [item]) (push codeSize streams item) := by
  -- both writes are inside their streams
  have hword : streams.1.tell + (toLE 4 (item.word
      (codeSize - streams.1.tell + streams.2.tell)).toNat).length ≤ streamMaxSize := by
    rwa [h.code_tell, toLE_length]
  have hdatum : streams.2.tell + item.datum.length ≤ streamMaxSize := by
    rwa [h.data_tell]
  constructor
  · calc
      (LeafHook.push codeSize streams item).1.data
          = streams.1.data ++
              toLE 4 (item.word (codeSize - streams.1.tell + streams.2.tell)).toNat :=
            LHStream.write_data hword
      _ = LiteralPool.codeOf (LiteralPool.words codeSize 0 0 (items ++ [item])) := by
            rw [LiteralPool.words_append, LiteralPool.codeOf_append, h.code, h.code_tell,
              h.data_tell, Nat.zero_add, Nat.zero_add]
            simp [LiteralPool.words, LiteralPool.codeOf]
  · calc
      (LeafHook.push codeSize streams item).2.data = streams.2.data ++ item.datum :=
            LHStream.write_data hdatum
      _ = LiteralPool.dataOf (items ++ [item]) := by
            rw [h.data, LiteralPool.dataOf_append, LiteralPool.dataOf_cons,
              LiteralPool.dataOf_nil, List.append_nil]

/-- The loop pushes the items in order. -/
theorem foldl {step : LHStream × LHStream → Nat → LHStream × LHStream} {item : Nat → Item}
    {n size : Nat} (hcode : 4 * n ≤ codeSize) (hcodeSize : codeSize ≤ streamMaxSize)
    (hdata : n * size ≤ streamMaxSize) (hsize : ∀ i, (item i).datum.length ≤ size)
    (hstep : ∀ streams i, streams.1.tell ≤ codeSize →
      step streams i = LeafHook.push codeSize streams (item i)) :
    ∀ i ≤ n, Emitted codeSize ((List.range i).map item)
        ((List.range i).foldl step (LHStream.init, LHStream.init)) ∧
      (LiteralPool.dataOf ((List.range i).map item)).length ≤ i * size := by
  intro i
  induction i with
  | zero => exact fun _ => ⟨init codeSize, Nat.zero_le _⟩
  | succ i ih =>
      -- before each round the code is inside what was announced, and the data at most `i * size`
      intro hi
      rcases ih (Nat.le_of_succ_le hi) with ⟨hemitted, hlen⟩
      have hitem := hsize i
      have hlen' : (LiteralPool.dataOf ((List.range i).map item)).length + (item i).datum.length ≤
          (i + 1) * size := by
        rw [Nat.succ_mul]
        omega
      have hroom : (i + 1) * size ≤ n * size := Nat.mul_le_mul_right size hi
      have htell : ((List.range i).foldl step (LHStream.init, LHStream.init)).1.tell ≤ codeSize := by
        rw [hemitted.code_tell, List.length_map, List.length_range]
        omega
      have hcount : 4 * ((List.range i).map item).length + 4 ≤ streamMaxSize := by
        rw [List.length_map, List.length_range]
        omega
      rw [List.range_succ, List.map_append, List.foldl_append, List.map_singleton,
        List.foldl_cons, List.foldl_nil, hstep _ i htell]
      refine ⟨hemitted.push (item i) hcount (by omega), ?_⟩
      rw [LiteralPool.dataOf_append, LiteralPool.dataOf_cons, LiteralPool.dataOf_nil,
        List.append_nil, List.length_append]
      exact hlen'

/-- The end of a stub: a load with its datum, and a branch without one. -/
theorem jumpBack (h : Emitted codeSize items streams) (jump : Item) (branch : BitVec 32)
    (hcode : 4 * items.length + 8 ≤ streamMaxSize)
    (hdata : (LiteralPool.dataOf items).length + jump.datum.length ≤ streamMaxSize) :
    Emitted codeSize (items ++ [jump, copyItem branch])
      ((streams.1.write32
        (jump.word (codeSize - streams.1.tell + streams.2.tell))).write32 branch,
        streams.2.write jump.datum) := by
  -- the branch has no datum, so only the code stream grows
  have hload := h.push jump (by omega) hdata
  have hbranch := hload.push (copyItem branch)
    (by rw [List.length_append, List.length_singleton]; omega)
    (by
      rw [LiteralPool.dataOf_append, List.length_append, LiteralPool.dataOf_cons,
        LiteralPool.dataOf_nil, List.append_nil]
      exact hdata)
  rw [List.append_assoc, List.singleton_append] at hbranch
  have hnil : (streams.2.write jump.datum).write [] = streams.2.write jump.datum :=
    LHStream.write_nil _
  simpa only [LeafHook.push, copyItem, hnil] using hbranch

/-- The rounds of the loop, and the jump back. -/
theorem rewritten {step : LHStream × LHStream → Nat → LHStream × LHStream} {item : Nat → Item}
    {n size : Nat} (hn : 4 * (n + 2) ≤ streamMaxSize) (hdata : (n + 1) * size ≤ streamMaxSize)
    (hsize : ∀ i, (item i).datum.length ≤ size)
    (hstep : ∀ streams i, streams.1.tell ≤ 4 * (n + 2) →
      step streams i = LeafHook.push (4 * (n + 2)) streams (item i))
    (jump : Item) (hjump : jump.datum.length ≤ size) (branch : BitVec 32) :
    let streams := (List.range n).foldl step (LHStream.init, LHStream.init)
    (∀ i ≤ n, Emitted (4 * (n + 2)) ((List.range i).map item)
        ((List.range i).foldl step (LHStream.init, LHStream.init))) ∧
      streams.1.tell ≤ 4 * (n + 2) ∧
      Emitted (4 * (n + 2)) ((List.range n).map item ++ [jump, copyItem branch])
        ((streams.1.write32
          (jump.word (4 * (n + 2) - streams.1.tell + streams.2.tell))).write32 branch,
          streams.2.write jump.datum) := by
  intro streams
  rw [Nat.succ_mul] at hdata
  have hrounds := foldl (n := n) (by omega) hn (by omega) hsize hstep
  rcases hrounds n (Nat.le_refl n) with ⟨hloop, hlen⟩
  have hcount : ((List.range n).map item).length = n := by simp
  -- the loop has emitted one word for each instruction
  have htell : streams.1.tell = 4 * n := hloop.code_tell.trans (by rw [hcount])
  exact ⟨fun i hi => (hrounds i hi).1, by omega,
    hloop.jumpBack jump branch (by rw [hcount]; omega) (by omega)⟩

section Stub

variable {w n i : Nat} {item : Nat → Item} {jump : Item} {branch : BitVec 32}

/-- When the code is as large as was announced, the stub area holds the assembled items. -/
theorem stub (h : Emitted codeSize items streams) (hsize : codeSize = 4 * items.length)
    (self : LHHooker w) (mem : Memory w) (hw : 9 ≤ w) :
    (copyToNewBlock self mem streams.1 streams.2).mem =
      mem.write (copyToNewBlock self mem streams.1 streams.2).newBlock
        (LiteralPool.assemble items) := by
  rw [copyToNewBlock_mem self mem _ _ hw, h.code, h.data, hsize, LiteralPool.assemble]

/-- A stub is not larger than two streams. -/
theorem assemble_length_le (h : Emitted codeSize items streams) :
    (LiteralPool.assemble items).length ≤ 2 * streamMaxSize := by
  have hcode := streams.1.fits
  have hdata := streams.2.fits
  rw [h.code, LiteralPool.codeOf_length, LiteralPool.words_length] at hcode
  rw [h.data] at hdata
  rw [LiteralPool.assemble_length]
  omega

theorem assemble_le_memory (h : Emitted codeSize items streams) (hw : 9 ≤ w) :
    (LiteralPool.assemble items).length ≤ 2 ^ w := by
  calc
    (LiteralPool.assemble items).length ≤ 2 ^ 9 := h.assemble_length_le
    _ ≤ 2 ^ w := Nat.pow_le_pow_right (by decide) hw

/-- The word of an item is fetched at its index, and its datum is found at the distance for which
the word was made. -/
theorem fetch_item (h : Emitted codeSize items streams) (hsize : codeSize = 4 * items.length)
    (self : LHHooker w) (mem : Memory w) (hw : 9 ≤ w) {it : Item} (hget : items[i]? = some it) :
    let r := copyToNewBlock self mem streams.1 streams.2
    r.mem.load32 (wordAddr r.newBlock i) = it.word (LiteralPool.dist items i) ∧
      r.mem.read (wordAddr r.newBlock i + BitVec.ofNat w (LiteralPool.dist items i))
        it.datum.length = it.datum := by
  intro r
  have hwrap := h.assemble_le_memory hw
  have hmem : r.mem = mem.write r.newBlock (LiteralPool.assemble items) :=
    h.stub hsize self mem hw
  rw [hmem]
  exact ⟨LiteralPool.load_word mem _ hget hwrap, LiteralPool.read_datum mem _ hget hwrap⟩

/-- The same for the `i`-th instruction of a block, with what is known of the distance. -/
theorem fetch (h : Emitted (4 * (n + 2)) ((List.range n).map item ++ [jump, copyItem branch]) streams)
    (hwords : ∀ i, (item i).datum.length % 4 = 0) (self : LHHooker w) (mem : Memory w)
    (hw : 9 ≤ w) (hi : i < n) :
    let r := copyToNewBlock self mem streams.1 streams.2
    ∃ d, (8 ≤ d ∧ d ≤ 2 * streamMaxSize ∧ d % 4 = 0) ∧
      r.mem.load32 (wordAddr r.newBlock i) = (item i).word d ∧
      r.mem.read (wordAddr r.newBlock i + BitVec.ofNat w d) (item i).datum.length =
        (item i).datum := by
  intro r
  -- work with the whole list; the item sits at its index
  generalize hitems : (List.range n).map item ++ [jump, copyItem branch] = items at h
  have hcount : items.length = n + 2 := by
    rw [← hitems]
    simp
  have hget : items[i]? = some (item i) := by
    rw [← hitems, List.getElem?_append_left (by simpa using hi)]
    simp [hi]
  -- the data before it are words, so its own datum is at a word
  have hbefore : ∀ other ∈ items.take i, other.datum.length % 4 = 0 := by
    intro other hother
    rw [← hitems, List.take_append_of_le_length (by simpa using Nat.le_of_lt hi)] at hother
    rcases List.mem_map.mp (List.mem_of_mem_take hother) with ⟨j, _, rfl⟩
    exact hwords j
  have hsize := h.assemble_length_le
  refine ⟨LiteralPool.dist items i, ⟨?_, ?_, LiteralPool.dist_aligned hbefore⟩,
    h.fetch_item (by rw [hcount]) self mem hw hget⟩
  · -- the two instructions of the jump back are between
    rw [LiteralPool.dist, hcount]
    omega
  · have hle := LiteralPool.dist_add_le hget
    omega

end Stub

end Emitted

end LeafHook
end KnShim
