import KnShim.Lib.Memory

/-!
# LiteralPool — code in front of the data that it loads

A stub is a run of 32-bit instruction words and, right behind the last word, the data that they load
relative to their own address.  An `Item` is one instruction with its datum; its word depends on
`dist`, the distance from the instruction to the datum, which is known only from what the items
before it emitted.  `load_word` and `read_datum` say where both are found when the assembled stub is
in memory.
-/

namespace KnShim
namespace Lib

/-- An instruction word, as a function of the distance to the datum that goes with it. -/
structure Item where
  word : Nat → BitVec 32
  datum : Bytes

namespace LiteralPool

/-- The data of the items, in order. -/
def dataOf (items : List Item) : Bytes := items.flatMap Item.datum

/-- The words of the items, when `code` bytes of code and `data` bytes of data stand before them. -/
def words (codeSize : Nat) : Nat → Nat → List Item → List (BitVec 32)
  | _, _, [] => []
  | code, data, item :: items =>
      item.word (codeSize - code + data) ::
        words codeSize (code + 4) (data + item.datum.length) items

def codeOf (ws : List (BitVec 32)) : Bytes := ws.flatMap fun w => toLE 4 w.toNat

/-- The stub: all the code, then all the data. -/
def assemble (items : List Item) : Bytes :=
  codeOf (words (4 * items.length) 0 0 items) ++ dataOf items

/-- The distance from the `i`-th instruction to its datum. -/
def dist (items : List Item) (i : Nat) : Nat :=
  4 * items.length - 4 * i + (dataOf (items.take i)).length

variable {items : List Item} {item : Item} {i : Nat}

@[simp] theorem dataOf_nil : dataOf [] = [] := rfl

@[simp] theorem dataOf_append (xs ys : List Item) : dataOf (xs ++ ys) = dataOf xs ++ dataOf ys :=
  List.flatMap_append

@[simp] theorem dataOf_cons (item : Item) (items : List Item) :
    dataOf (item :: items) = item.datum ++ dataOf items := rfl

@[simp] theorem codeOf_append (xs ys : List (BitVec 32)) :
    codeOf (xs ++ ys) = codeOf xs ++ codeOf ys := List.flatMap_append

@[simp] theorem codeOf_length (ws : List (BitVec 32)) : (codeOf ws).length = 4 * ws.length := by
  induction ws with
  | nil => rfl
  | cons w ws ih =>
      calc
        (codeOf (w :: ws)).length = 4 + (codeOf ws).length := by
          rw [codeOf, List.flatMap_cons, List.length_append, toLE_length]
          rfl
        _ = 4 * (w :: ws).length := by rw [ih, List.length_cons, Nat.mul_succ, Nat.add_comm]

@[simp] theorem words_length (codeSize code data : Nat) (items : List Item) :
    (words codeSize code data items).length = items.length := by
  induction items generalizing code data with
  | nil => rfl
  | cons item items ih => rw [words, List.length_cons, ih, List.length_cons]

theorem words_append (codeSize code data : Nat) (xs ys : List Item) :
    words codeSize code data (xs ++ ys) =
      words codeSize code data xs ++
        words codeSize (code + 4 * xs.length) (data + (dataOf xs).length) ys := by
  induction xs generalizing code data with
  | nil => rfl
  | cons x xs ih =>
      have hcode : code + 4 + 4 * xs.length = code + 4 * (x :: xs).length := by
        rw [List.length_cons]
        omega
      have hdata : data + x.datum.length + (dataOf xs).length =
          data + (dataOf (x :: xs)).length := by
        rw [dataOf_cons, List.length_append, Nat.add_assoc]
      rw [List.cons_append, words, ih, hcode, hdata]
      rfl

/-- The items around the `i`-th. -/
theorem split_at (h : items[i]? = some item) :
    ∃ after, items = items.take i ++ item :: after ∧ (items.take i).length = i := by
  rcases List.getElem?_eq_some_iff.mp h with ⟨hlt, rfl⟩
  refine ⟨items.drop (i + 1), ?_, List.length_take_of_le (Nat.le_of_lt hlt)⟩
  rw [List.getElem_cons_drop, List.take_append_drop]

/-- The data of the items up to the `i`-th. -/
theorem dataOf_take_succ (h : items[i]? = some item) :
    dataOf (items.take (i + 1)) = dataOf (items.take i) ++ item.datum := by
  rw [List.take_add_one, h, dataOf_append]
  simp

/-- Its datum stands before those of later items. -/
theorem dataOf_take_add_le (h : items[i]? = some item) {j : Nat} (hij : i < j) :
    (dataOf (items.take i)).length + item.datum.length ≤ (dataOf (items.take j)).length := by
  have hsplit : items.take j = items.take (i + 1) ++ (items.take j).drop (i + 1) := by
    calc
      items.take j = (items.take j).take (i + 1) ++ (items.take j).drop (i + 1) :=
        (List.take_append_drop _ _).symm
      _ = items.take (i + 1) ++ (items.take j).drop (i + 1) := by
        rw [List.take_take, Nat.min_eq_left hij]
  rw [hsplit, dataOf_append, dataOf_take_succ h, List.length_append, List.length_append]
  exact Nat.le_add_right _ _

/-- The word of the `i`-th item stands at the offset `4 * i`. -/
theorem assemble_word (h : items[i]? = some item) :
    ((assemble items).drop (4 * i)).take 4 = toLE 4 (item.word (dist items i)).toNat := by
  rcases split_at h with ⟨after, hitems, hlen⟩
  -- the words before it, the word itself, the words behind it
  have hwords : words (4 * items.length) 0 0 items =
      words (4 * items.length) 0 0 (items.take i) ++ item.word (dist items i) ::
        words (4 * items.length) (4 * i + 4) ((dataOf (items.take i)).length + item.datum.length)
          after := by
    calc
      words (4 * items.length) 0 0 items
          = words (4 * items.length) 0 0 (items.take i ++ item :: after) := by rw [← hitems]
      _ = _ := by
          rw [words_append, words, Nat.zero_add, Nat.zero_add, hlen]
          rfl
  have hbefore : (codeOf (words (4 * items.length) 0 0 (items.take i))).length = 4 * i := by
    rw [codeOf_length, words_length, hlen]
  rw [assemble, hwords, codeOf_append, List.append_assoc, List.drop_left' hbefore, codeOf,
    List.flatMap_cons, List.append_assoc]
  exact List.take_left' (toLE_length _ _)

/-- The datum of the `i`-th item stands behind the code and the data before it. -/
theorem assemble_datum (h : items[i]? = some item) :
    ((assemble items).drop (4 * i + dist items i)).take item.datum.length = item.datum := by
  rcases split_at h with ⟨after, hitems, hlen⟩
  have hi : i ≤ items.length := Nat.le_of_lt (List.getElem?_eq_some_iff.mp h).1
  have hcode : (codeOf (words (4 * items.length) 0 0 items)).length = 4 * items.length := by
    rw [codeOf_length, words_length]
  -- the distance leads over the code and the data of the items before it
  have hoffset : 4 * i + dist items i =
      (codeOf (words (4 * items.length) 0 0 items)).length + (dataOf (items.take i)).length := by
    rw [hcode, dist]
    omega
  have hdata : dataOf items = dataOf (items.take i) ++ (item.datum ++ dataOf after) := by
    calc
      dataOf items = dataOf (items.take i ++ item :: after) := by rw [← hitems]
      _ = _ := by rw [dataOf_append, dataOf_cons]
  rw [assemble, hoffset, List.drop_length_add_append, hdata, List.drop_left, List.take_left]

@[simp] theorem assemble_length (items : List Item) :
    (assemble items).length = 4 * items.length + (dataOf items).length := by
  rw [assemble, List.length_append, codeOf_length, words_length]

/-- The datum is inside the stub. -/
theorem dist_add_le (h : items[i]? = some item) :
    4 * i + dist items i + item.datum.length ≤ (assemble items).length := by
  rcases split_at h with ⟨after, hitems, _⟩
  have hi : i ≤ items.length := Nat.le_of_lt (List.getElem?_eq_some_iff.mp h).1
  have hdata : (dataOf items).length =
      (dataOf (items.take i)).length + (item.datum.length + (dataOf after).length) := by
    calc
      (dataOf items).length = (dataOf (items.take i ++ item :: after)).length := by rw [← hitems]
      _ = _ := by rw [dataOf_append, dataOf_cons, List.length_append, List.length_append]
  rw [assemble_length, dist]
  omega

/-- When the data before an item are words, so is its distance. -/
theorem dist_aligned (hwords : ∀ item ∈ items.take i, item.datum.length % 4 = 0) :
    dist items i % 4 = 0 := by
  have hdata : ∀ xs : List Item, (∀ item ∈ xs, item.datum.length % 4 = 0) →
      (dataOf xs).length % 4 = 0 := by
    intro xs hxs
    induction xs with
    | nil => rfl
    | cons x xs ih =>
        rcases List.forall_mem_cons.mp hxs with ⟨hx, hrest⟩
        have htail := ih hrest
        rw [dataOf_cons, List.length_append]
        omega
  have htake := hdata (items.take i) hwords
  rw [dist]
  omega

/-! ## The stub in memory -/

variable {w : Nat}

/-- The instruction that is fetched at the `i`-th place. -/
theorem load_word (m : Memory w) (base : BitVec w) (h : items[i]? = some item)
    (hsize : (assemble items).length ≤ 2 ^ w) :
    (m.write base (assemble items)).load32 (base + BitVec.ofNat w (4 * i)) =
      item.word (dist items i) := by
  have hi : i < items.length := (List.getElem?_eq_some_iff.mp h).1
  have hpart : 4 * i + 4 ≤ (assemble items).length := by
    rw [assemble_length]
    omega
  apply Memory.load_of_read
  rw [Memory.read_write m base hpart hsize, assemble_word h]

/-- The datum that is found at the distance that the instruction was made for. -/
theorem read_datum (m : Memory w) (base : BitVec w) (h : items[i]? = some item)
    (hsize : (assemble items).length ≤ 2 ^ w) :
    (m.write base (assemble items)).read
        (base + BitVec.ofNat w (4 * i) + BitVec.ofNat w (dist items i)) item.datum.length =
      item.datum := by
  have haddr : base + BitVec.ofNat w (4 * i) + BitVec.ofNat w (dist items i) =
      base + BitVec.ofNat w (4 * i + dist items i) := by
    rw [BitVec.ofNat_add, BitVec.add_assoc]
  rw [haddr, Memory.read_write m base (dist_add_le h) hsize, assemble_datum h]

/-- The same where the assembled stub is found in memory. -/
theorem fetch_word {m : Memory w} {base : BitVec w}
    (hmem : m.read base (assemble items).length = assemble items) (h : items[i]? = some item)
    (hsize : (assemble items).length ≤ 2 ^ w) :
    m.load32 (base + BitVec.ofNat w (4 * i)) = item.word (dist items i) := by
  have hself := m.write_read_self base (n := (assemble items).length)
  rw [hmem] at hself
  have hload := load_word m base h hsize
  rwa [hself] at hload

theorem fetch_datum {m : Memory w} {base : BitVec w}
    (hmem : m.read base (assemble items).length = assemble items) (h : items[i]? = some item)
    (hsize : (assemble items).length ≤ 2 ^ w) :
    m.read (base + BitVec.ofNat w (4 * i) + BitVec.ofNat w (dist items i)) item.datum.length =
      item.datum := by
  have hself := m.write_read_self base (n := (assemble items).length)
  rw [hmem] at hself
  have hread := read_datum m base h hsize
  rwa [hself] at hread

end LiteralPool

end Lib
end KnShim
