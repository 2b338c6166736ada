import KnShim.Lib.Fallible
import KnShim.Lib.LittleEndian
import Mathlib.Data.Nat.Basic

/-!
# Memory — the machines that the code runs on, and their memory

A `Memory w` holds a byte at each of the `2 ^ w` addresses, and addresses wrap around.  Numbers are
little-endian.  A `Space w` is a memory of which only some addresses are mapped; an access that
touches any other address is a fault.
-/

namespace KnShim
namespace Lib

/-- The two machines that the library is built for. -/
inductive Target where
  | armv7
  | aarch64
  deriving DecidableEq, Repr

namespace Target

/-- The width of pointers and of `size_t`. -/
def wordBits : Target → Nat
  | .armv7 => 32
  | .aarch64 => 64

/-- The size of pointers and of `size_t`. -/
def wordBytes : Target → Nat
  | .armv7 => 4
  | .aarch64 => 8

/-- No object is larger than `PTRDIFF_MAX`. -/
def ptrdiffMax (target : Target) : Nat := 2 ^ (target.wordBits - 1) - 1

end Target

/-! ## Memory that is there everywhere -/

abbrev Memory (w : Nat) : Type := BitVec w → UInt8

namespace Memory

variable {w : Nat}

/-- The `n` bytes from `a` on. -/
def read (m : Memory w) (a : BitVec w) (n : Nat) : Bytes :=
  (List.range n).map fun i => m (a + BitVec.ofNat w i)

/-- The memory after the bytes were copied to `a`. -/
def write (m : Memory w) (a : BitVec w) (bs : Bytes) : Memory w := fun p =>
  bs.getD (p - a).toNat (m p)

/-- The number of `n` bytes at `a`. -/
def load (m : Memory w) (a : BitVec w) (n : Nat) : BitVec (8 * n) :=
  BitVec.ofNat (8 * n) (ofLE (m.read a n))

/-- The 32-bit word at `a`. -/
def load32 (m : Memory w) (a : BitVec w) : BitVec 32 := m.load a 4

/-- The 64-bit word at `a`. -/
def load64 (m : Memory w) (a : BitVec w) : BitVec 64 := m.load a 8

/-- The memory after a 32-bit word was stored at `a`. -/
def store32 (m : Memory w) (a : BitVec w) (v : BitVec 32) : Memory w := m.write a (toLE 4 v.toNat)

/-- The memory after `n` zeros were mapped at `a`. -/
def zeros (m : Memory w) (a : BitVec w) (n : Nat) : Memory w := fun p =>
  if (p - a).toNat < n then 0 else m p

@[simp] theorem read_length (m : Memory w) (a : BitVec w) (n : Nat) : (m.read a n).length = n := by
  simp [read]

theorem read_getElem? (m : Memory w) (a : BitVec w) {n i : Nat} (hi : i < n) :
    (m.read a n)[i]? = some (m (a + BitVec.ofNat w i)) := by
  simp [read, hi]

theorem take_read (m : Memory w) (a : BitVec w) (n k : Nat) :
    (m.read a n).take k = m.read a (min k n) := by
  rw [read, ← List.map_take, List.take_range]
  rfl

theorem drop_read (m : Memory w) (a : BitVec w) (n k : Nat) :
    (m.read a n).drop k = m.read (a + BitVec.ofNat w k) (n - k) := by
  apply List.ext_getElem?
  intro i
  rw [List.getElem?_drop]
  by_cases hi : k + i < n
  · have hleft : i < n - k := by omega
    rw [read_getElem? _ _ hi, read_getElem? _ _ hleft, BitVec.add_assoc, BitVec.ofNat_add]
  · have hlong : (m.read a n).length ≤ k + i := by
      rw [read_length]
      omega
    have hshort : (m.read (a + BitVec.ofNat w k) (n - k)).length ≤ i := by
      rw [read_length]
      omega
    rw [List.getElem?_eq_none hlong, List.getElem?_eq_none hshort]

/-- A byte that was copied is there. -/
theorem write_apply (m : Memory w) (a : BitVec w) {bs : Bytes} {i : Nat} {b : UInt8}
    (hi : bs[i]? = some b) (hsize : bs.length ≤ 2 ^ w) :
    m.write a bs (a + BitVec.ofNat w i) = b := by
  have hlt : i < bs.length := (List.getElem?_eq_some_iff.mp hi).1
  -- the offset does not wrap, because the block is no longer than the memory
  have hoffset : (a + BitVec.ofNat w i - a).toNat = i := by
    rw [BitVec.add_comm, BitVec.add_sub_cancel, BitVec.toNat_ofNat]
    exact Nat.mod_eq_of_lt (lt_of_lt_of_le hlt hsize)
  rw [write, hoffset, List.getD_eq_getElem?_getD, hi]
  rfl

/-- A part of what was copied is read back at its offset. -/
theorem read_write (m : Memory w) (a : BitVec w) {bs : Bytes} {i n : Nat}
    (hpart : i + n ≤ bs.length) (hsize : bs.length ≤ 2 ^ w) :
    (m.write a bs).read (a + BitVec.ofNat w i) n = (bs.drop i).take n := by
  apply List.ext_getElem?
  intro j
  -- byte by byte
  by_cases hj : j < n
  · have hget : bs[i + j]? = some bs[i + j] := List.getElem?_eq_getElem (by omega)
    have haddr : a + BitVec.ofNat w i + BitVec.ofNat w j = a + BitVec.ofNat w (i + j) := by
      rw [BitVec.add_assoc, BitVec.ofNat_add]
    rw [read_getElem? _ _ hj, haddr, write_apply m a hget hsize, List.getElem?_take_of_lt hj,
      List.getElem?_drop, hget]
  · have hleft : n ≤ j := Nat.le_of_not_lt hj
    rw [List.getElem?_eq_none (by rwa [read_length]),
      List.getElem?_eq_none (le_trans (List.length_take_le _ _) hleft)]

/-- Two blocks that are copied one behind the other are copied as one. -/
theorem write_append (m : Memory w) (a : BitVec w) (xs ys : Bytes)
    (hsize : xs.length + ys.length ≤ 2 ^ w) :
    (m.write a xs).write (a + BitVec.ofNat w xs.length) ys = m.write a (xs ++ ys) := by
  funext p
  have hp : (p - a).toNat < 2 ^ w := (p - a).isLt
  -- where `p` lies relative to the second block
  have hoffset : (p - (a + BitVec.ofNat w xs.length)).toNat =
      (2 ^ w - xs.length % 2 ^ w + (p - a).toNat) % 2 ^ w := by
    rw [← BitVec.sub_sub, BitVec.toNat_sub, BitVec.toNat_ofNat]
  rw [write, hoffset, write, write, List.getD_eq_getElem?_getD, List.getD_eq_getElem?_getD,
    List.getD_eq_getElem?_getD]
  by_cases hx : (p - a).toNat < xs.length
  · -- the second block is too short to wrap around into the first
    have hys : ys.length ≤ (2 ^ w - xs.length % 2 ^ w + (p - a).toNat) % 2 ^ w := by
      rcases Nat.lt_or_ge xs.length (2 ^ w) with hlt | hge
      · rw [Nat.mod_eq_of_lt hlt, Nat.mod_eq_of_lt (by omega)]
        omega
      · omega
    rw [List.getElem?_eq_none hys, List.getElem?_append_left hx]
    rfl
  · have hle : xs.length ≤ (p - a).toNat := Nat.le_of_not_lt hx
    -- behind the first block the offset is the difference
    have hdist : (2 ^ w - xs.length % 2 ^ w + (p - a).toNat) % 2 ^ w =
        (p - a).toNat - xs.length := by
      rw [Nat.mod_eq_of_lt (by omega : xs.length < 2 ^ w),
        show 2 ^ w - xs.length + (p - a).toNat = (p - a).toNat - xs.length + 2 ^ w by omega,
        Nat.add_mod_right, Nat.mod_eq_of_lt (by omega)]
    rw [hdist, List.getElem?_append_right hle, List.getElem?_eq_none hle]
    rfl

/-- The bytes of a number that was loaded are the bytes that were there. -/
theorem toLE_load (m : Memory w) (a : BitVec w) (n : Nat) :
    toLE n (m.load a n).toNat = m.read a n := by
  have hlt : ofLE (m.read a n) < 2 ^ (8 * n) := by
    calc
      ofLE (m.read a n) < 256 ^ (m.read a n).length := ofLE_lt _
      _ = 2 ^ (8 * n) := by rw [read_length, show (256 : Nat) = 2 ^ 8 from rfl, ← Nat.pow_mul]
  calc
    toLE n (m.load a n).toNat = toLE (m.read a n).length (ofLE (m.read a n)) := by
      rw [load, BitVec.toNat_ofNat, Nat.mod_eq_of_lt hlt, read_length]
    _ = m.read a n := toLE_ofLE _

/-- Only the low bits of a number are written. -/
theorem toLE_setWidth {k : Nat} (v : BitVec k) (n : Nat) :
    toLE n (v.setWidth (8 * n)).toNat = toLE n v.toNat := by
  rw [BitVec.toNat_setWidth, Nat.pow_mul]
  exact toLE_mod n v.toNat

/-- The bytes of a number are loaded as the number. -/
theorem load_of_read {m : Memory w} {a : BitVec w} {n : Nat} {v : BitVec (8 * n)}
    (h : m.read a n = toLE n v.toNat) : m.load a n = v := by
  apply BitVec.eq_of_toNat_eq
  have hlt : v.toNat < 256 ^ n := by
    rw [show (256 : Nat) = 2 ^ 8 from rfl, ← Nat.pow_mul]
    exact v.isLt
  rw [load, h, ofLE_toLE_of_lt hlt, BitVec.toNat_ofNat, Nat.mod_eq_of_lt v.isLt]

/-! ### Ranges -/

/-- The address is one of the `n` from `a` on. -/
def InRange (a : BitVec w) (n : Nat) (p : BitVec w) : Prop := (p - a).toNat < n

/-- The two ranges have no address in common. -/
def Apart (a : BitVec w) (n : Nat) (b : BitVec w) (k : Nat) : Prop :=
  ∀ p, InRange a n p → ¬ InRange b k p

instance (a : BitVec w) (n : Nat) (p : BitVec w) : Decidable (InRange a n p) :=
  inferInstanceAs (Decidable (_ < _))

theorem zeros_apply (m : Memory w) {a p : BitVec w} {n : Nat} (h : InRange a n p) :
    m.zeros a n p = 0 := if_pos h

theorem toNat_add_ofNat_sub (a : BitVec w) {i : Nat} (hi : i < 2 ^ w) :
    (a + BitVec.ofNat w i - a).toNat = i := by
  rw [BitVec.add_comm, BitVec.add_sub_cancel, BitVec.toNat_ofNat, Nat.mod_eq_of_lt hi]

theorem add_ofNat_toNat_sub (a p : BitVec w) : a + BitVec.ofNat w (p - a).toNat = p := by
  rw [BitVec.ofNat_toNat, BitVec.setWidth_eq, BitVec.add_comm, BitVec.sub_add_cancel]

/-- The addresses of a range that does not go around the memory. -/
theorem inRange_offset (a : BitVec w) {i n : Nat} (hi : i < n) (hn : n ≤ 2 ^ w) :
    InRange a n (a + BitVec.ofNat w i) := by
  rwa [InRange, toNat_add_ofNat_sub a (lt_of_lt_of_le hi hn)]

theorem Apart.symm {a b : BitVec w} {n k : Nat} (h : Apart a n b k) : Apart b k a n :=
  fun p hb ha => h p ha hb

/-- Parts of ranges that are apart are apart. -/
theorem Apart.mono {a b : BitVec w} {n n' k k' : Nat} (h : Apart a n b k) (hn : n' ≤ n)
    (hk : k' ≤ k) : Apart a n' b k' :=
  fun p ha hb => h p (lt_of_lt_of_le ha hn) (lt_of_lt_of_le hb hk)

/-- An address inside the range at an offset, seen from the start. -/
theorem InRange.of_offset {a p : BitVec w} {x n size : Nat}
    (h : InRange (a + BitVec.ofNat w x) n p) (hsize : x + n ≤ size) (hw : size ≤ 2 ^ w) :
    (p - a).toNat = x + (p - (a + BitVec.ofNat w x)).toNat ∧ InRange a size p := by
  rw [InRange] at h
  have hp : p = a + BitVec.ofNat w (x + (p - (a + BitVec.ofNat w x)).toNat) := by
    rw [BitVec.ofNat_add, ← BitVec.add_assoc, add_ofNat_toNat_sub]
  have hoff : (p - a).toNat = x + (p - (a + BitVec.ofNat w x)).toNat := by
    calc
      (p - a).toNat = (a + BitVec.ofNat w (x + (p - (a + BitVec.ofNat w x)).toNat) - a).toNat := by
        rw [← hp]
      _ = _ := toNat_add_ofNat_sub a (by omega)
  refine ⟨hoff, ?_⟩
  rw [InRange, hoff]
  omega

/-- A range and an address at offsets from one address. -/
theorem inRange_offsets (a : BitVec w) {x n v : Nat} (hx : x + n ≤ 2 ^ w) (hv : v < 2 ^ w) :
    InRange (a + BitVec.ofNat w x) n (a + BitVec.ofNat w v) ↔ x ≤ v ∧ v < x + n := by
  constructor
  · intro h
    rcases h.of_offset (Nat.le_refl _) hx with ⟨hoff, hin⟩
    rw [InRange, toNat_add_ofNat_sub a hv] at hin
    rw [toNat_add_ofNat_sub a hv] at hoff
    omega
  · rintro ⟨hle, hlt⟩
    have hsplit : a + BitVec.ofNat w v = a + BitVec.ofNat w x + BitVec.ofNat w (v - x) := by
      rw [BitVec.add_assoc, ← BitVec.ofNat_add, Nat.add_sub_cancel' hle]
    rw [hsplit]
    exact inRange_offset _ (by omega) (by omega)

/-- Ranges at offsets from one address, one behind the other. -/
theorem apart_offsets (a : BitVec w) {x n y k : Nat} (hxy : x + n ≤ y) (hy : y + k ≤ 2 ^ w) :
    Apart (a + BitVec.ofNat w x) n (a + BitVec.ofNat w y) k := by
  intro p hx hk
  have hfirst := (hx.of_offset (Nat.le_refl _) (by omega)).1
  have hsecond := (hk.of_offset (Nat.le_refl _) hy).1
  rw [InRange] at hx
  omega

/-- Ranges are apart when each of them ends before the other one starts. -/
theorem apart_of_le_sub {a b : BitVec w} {n k : Nat} (hn : n ≤ (b - a).toNat)
    (hk : k ≤ (a - b).toNat) : Apart a n b k := by
  intro p ha hb
  rw [InRange] at ha hb
  -- the distance of the starts is the difference of the offsets of `p`
  have hsplit : ∀ c d : BitVec w, d - c = (p - c) - (p - d) := by grind
  rcases Nat.le_total (p - b).toNat (p - a).toNat with hle | hle
  · rw [hsplit a b, BitVec.toNat_sub_of_le hle] at hn
    omega
  · rw [hsplit b a, BitVec.toNat_sub_of_le hle] at hk
    omega

/-- A write leaves the other addresses alone. -/
theorem write_of_not_inRange (m : Memory w) {a p : BitVec w} {bs : Bytes}
    (h : ¬ InRange a bs.length p) : m.write a bs p = m p := by
  rw [write, List.getD_eq_getElem?_getD, List.getElem?_eq_none (Nat.le_of_not_lt h)]
  rfl

/-- What is read depends on the range alone. -/
theorem read_congr {m m' : Memory w} {a : BitVec w} {n : Nat} (hn : n ≤ 2 ^ w)
    (h : ∀ p, InRange a n p → m p = m' p) : m.read a n = m'.read a n := by
  apply List.map_congr_left
  intro i hi
  exact h _ (inRange_offset a (List.mem_range.mp hi) hn)

/-- A write elsewhere does not change what is read. -/
theorem read_write_of_apart (m : Memory w) {a b : BitVec w} {n : Nat} {bs : Bytes}
    (h : Apart b n a bs.length) (hn : n ≤ 2 ^ w) : (m.write a bs).read b n = m.read b n :=
  read_congr hn fun p hp => write_of_not_inRange m (h p hp)

/-- What was written is read back. -/
theorem read_write_self (m : Memory w) (a : BitVec w) {bs : Bytes} (hsize : bs.length ≤ 2 ^ w) :
    (m.write a bs).read a bs.length = bs := by
  have hread := read_write m a (i := 0) (n := bs.length) (Nat.le_of_eq (Nat.zero_add _)) hsize
  rwa [BitVec.add_zero, List.drop_zero, List.take_length] at hread

theorem read_write_toLE (m : Memory w) (a : BitVec w) {n : Nat} (x : Nat) (hn : n ≤ 2 ^ w) :
    (m.write a (toLE n x)).read a n = toLE n x := by
  have hlen : (toLE n x).length = n := toLE_length _ _
  have hread : (m.write a (toLE n x)).read a (toLE n x).length = toLE n x :=
    read_write_self m a (by rwa [hlen])
  rwa [hlen] at hread

/-- A number that was written is loaded. -/
theorem load_write_toLE (m : Memory w) (a : BitVec w) {n : Nat} (v : BitVec (8 * n))
    (hn : n ≤ 2 ^ w) : (m.write a (toLE n v.toNat)).load a n = v :=
  load_of_read (m.read_write_toLE a v.toNat hn)

/-- Writing what is there changes nothing. -/
theorem write_read_self (m : Memory w) (a : BitVec w) {n : Nat} :
    m.write a (m.read a n) = m := by
  funext p
  by_cases hp : (p - a).toNat < n
  · rw [write, List.getD_eq_getElem?_getD, read_getElem? m a hp, Option.getD_some,
      add_ofNat_toNat_sub]
  · exact write_of_not_inRange m (by rwa [InRange, read_length])

end Memory

/-! ## Memory with holes -/

/-- The memory of a process: what is not mapped cannot be touched. -/
structure Space (w : Nat) where
  bytes : Memory w
  mapped : BitVec w → Bool

namespace Space

variable {w : Nat}

/-- Are all of the `n` addresses from `a` on mapped? -/
def covers (s : Space w) (a : BitVec w) (n : Nat) : Bool :=
  (List.range n).all fun i => s.mapped (a + BitVec.ofNat w i)

/-- Read `n` bytes. -/
def read (s : Space w) (a : BitVec w) (n : Nat) : Fallible Bytes :=
  if s.covers a n then .ok (s.bytes.read a n) else .error .outOfBounds

/-- Read a number of `n` bytes. -/
def load (s : Space w) (a : BitVec w) (n : Nat) : Fallible (BitVec (8 * n)) :=
  if s.covers a n then .ok (s.bytes.load a n) else .error .outOfBounds

/-- The bytes from `a` to the first NUL, which is looked for at no more than `fuel` addresses. -/
def cstring (s : Space w) (a : BitVec w) : Nat → Fallible Bytes
  | 0 => .error .nonTermination
  | fuel + 1 => do
      let b ← s.load a 1
      if b = 0 then
        return []
      else
        return UInt8.ofNat b.toNat :: (← s.cstring (a + 1) fuel)

/-- Write bytes. -/
def write (s : Space w) (a : BitVec w) (bs : Bytes) : Fallible (Space w) :=
  if s.covers a bs.length then .ok { s with bytes := s.bytes.write a bs }
  else .error .outOfBounds

variable {s : Space w} {a : BitVec w} {n : Nat}

theorem of_read {bs : Bytes} (h : s.read a n = .ok bs) :
    s.covers a n = true ∧ s.bytes.read a n = bs := by
  rw [read] at h
  split at h
  · rename_i hcovers
    exact ⟨hcovers, Except.ok.inj h⟩
  · cases h

theorem of_load {v : BitVec (8 * n)} (h : s.load a n = .ok v) :
    s.covers a n = true ∧ s.bytes.load a n = v := by
  rw [load] at h
  split at h
  · rename_i hcovers
    exact ⟨hcovers, Except.ok.inj h⟩
  · cases h

theorem write_of_covers {bs : Bytes} (h : s.covers a bs.length = true) :
    s.write a bs = .ok { s with bytes := s.bytes.write a bs } := if_pos h

/-- Writing back what has been read changes nothing. -/
theorem write_of_read {bs : Bytes} (h : s.read a n = .ok bs) : s.write a bs = .ok s := by
  rcases of_read h with ⟨hcovers, rfl⟩
  rw [write_of_covers (by rwa [Memory.read_length]), Memory.write_read_self]

/-- Writing a number over another one changes something unless they are the same. -/
theorem write_toLE_eq_self_iff {v v' : BitVec (8 * n)} (h : s.load a n = .ok v)
    (hn : n ≤ 2 ^ w) : s.write a (toLE n v'.toNat) = .ok s ↔ v' = v := by
  rcases of_load h with ⟨hcovers, rfl⟩
  have hlen : (toLE n v'.toNat).length = n := toLE_length _ _
  rw [write_of_covers (by rwa [hlen])]
  constructor
  · intro hsame
    have hbytes : s.bytes.write a (toLE n v'.toNat) = s.bytes :=
      congrArg Space.bytes (Except.ok.inj hsame)
    have hload := s.bytes.load_write_toLE a v' hn
    rw [hbytes] at hload
    exact hload.symm
  · rintro rfl
    rw [Memory.toLE_load, Memory.write_read_self]

end Space

end Lib
end KnShim
