import KnShim.Lib.Bits
import KnShim.PeekPoke.Addresses

/-!
# PeekPoke.Lossless — putting back what has been read

A script saves memory with `knPeek` and restores it with `knPoke`.  In between the value is a Lua
number, a double, unless it is a string.  Short integers, integers and the pointers of ARMv7 fit
into 53 bits and come back; a pointer of AArch64 comes back rounded.
-/

namespace KnShim
namespace PeekPoke

open Lib Lua AndrLeaf

variable {target : Target} {numerals : Numerals} {leaf : Leaf target.wordBits}
variable {space : Space target.wordBits} {address type : Value} {args : List Value}
variable {addr : BitVec target.wordBits}

/-- Reading changes nothing, and writing what was read, with the same type at the same address,
changes nothing either. -/
def Lossless (numerals : Numerals) (leaf : Leaf target.wordBits) (space : Space target.wordBits)
    (address type : Value) (args : List Value) : Prop :=
  ∀ v space', knPeek numerals leaf space (address :: type :: args) = .ok (v, space') →
    space' = space ∧
      ∃ answer, knPoke numerals leaf space [address, type, v] = .ok (answer, space)

/-- The same behind the evaluation of the address. -/
def LosslessAt (numerals : Numerals) (space : Space target.wordBits)
    (addr : BitVec target.wordBits) (type : Value) (args : List Value) : Prop :=
  ∀ v, peekAt numerals space addr type args = .ok v →
    ∃ answer, pokeAt numerals space addr type v = .ok (answer, space)

theorem lossless_iff_losslessAt (h : knGetAddress numerals leaf address = .ok addr) :
    Lossless numerals leaf space address type args ↔
      LosslessAt numerals space addr type args := by
  constructor
  · intro hlossless v hv
    have hpeek : knPeek numerals leaf space (address :: type :: args) = .ok (v, space) := by
      rw [knPeek, h, Fallible.ok_bind, hv]
      rfl
    rcases (hlossless v space hpeek).2 with ⟨answer, hpoke⟩
    rw [knPoke, h, Fallible.ok_bind] at hpoke
    exact ⟨answer, hpoke⟩
  · intro hat v space' hpeek
    rw [knPeek, h, Fallible.ok_bind] at hpeek
    rcases Fallible.bind_eq_ok.mp hpeek with ⟨v', hv, heq⟩
    cases heq
    rcases hat v hv with ⟨answer, hpoke⟩
    refine ⟨rfl, answer, ?_⟩
    rw [knPoke, h, Fallible.ok_bind]
    exact hpoke

/-- `knPoke` leaves the memory alone when its write does. -/
theorem pokeAt_same_iff {v : Value} {written : Fallible (Space target.wordBits)}
    (h : pokeValue numerals space addr type v = some <$> written) :
    (∃ answer, pokeAt numerals space addr type v = .ok (answer, space)) ↔
      written = .ok space := by
  rw [pokeAt, h]
  cases written with
  | error e => simp
  | ok space' =>
      constructor
      · rintro ⟨answer, heq⟩
        cases heq
        rfl
      · intro heq
        cases heq
        exact ⟨_, rfl⟩

/-! ## Integers as Lua numbers -/

theorem toInteger_ofInteger (w : Nat) {k : Nat} (v : BitVec k) :
    (Value.ofInteger v).toInteger numerals w = Number.saturate w (roundInt 53 v.toInt) :=
  Number.toInteger_ofInt w v.toInt

/-- Integers of at most 54 bits come back. -/
theorem toInteger_ofInteger_of_le {k w : Nat} (hk : 0 < k) (hkw : k ≤ w) (h54 : k ≤ 54)
    (v : BitVec k) : (Value.ofInteger v).toInteger numerals w = v.signExtend w := by
  have hbounds := toInt_bounds v
  have hfits : 2 ^ (k - 1) ≤ 2 ^ 53 := Nat.pow_le_pow_right (by decide) (by omega)
  have hwidth : 2 ^ (k - 1) ≤ 2 ^ (w - 1) := Nat.pow_le_pow_right (by decide) (by omega)
  rw [toInteger_ofInteger, roundInt_of_le (by decide) (by omega)]
  apply BitVec.eq_of_toInt_eq
  rw [Number.toInt_saturate (by omega), BitVec.toInt_signExtend_of_le hkw]
  omega

/-- A word of AArch64 that comes back: it is a double, or the largest `ptrdiff_t`, which is rounded
up to `2 ^ 63` and saturates. -/
def Survives (word : BitVec 64) : Prop := FitsBits 53 word.toInt ∨ word.toInt = 2 ^ 63 - 1

instance (word : BitVec 64) : Decidable (Survives word) := inferInstanceAs (Decidable (_ ∨ _))

theorem toInteger_ofInteger_eq_iff (word : BitVec 64) :
    (Value.ofInteger word).toInteger numerals 64 = word ↔ Survives word := by
  have hbounds := toInt_bounds word
  have hround : (roundInt 53 word.toInt).natAbs ≤ 2 ^ 63 := by
    rw [natAbs_roundInt]
    exact roundNat_le_two_pow (by decide) (by omega)
  have hlast : roundInt 53 (2 ^ 63 - 1) = 2 ^ 63 := by decide +kernel
  rw [Survives, ← roundInt_eq_self_iff, toInteger_ofInteger, ← BitVec.toInt_inj,
    Number.toInt_saturate (by decide)]
  constructor
  · intro h
    omega
  · rintro (h | h)
    · rw [h]
      omega
    · rw [h, hlast]
      decide

/-! ## The types -/

/-- An integer type of `n` bytes: whatever is there has to come back in the low bytes. -/
theorem losslessAt_integer_iff {n : Nat} {push : BitVec (8 * n) → Value}
    (hn : n ≤ 2 ^ target.wordBits)
    (hpeek : peekAt numerals space addr type args = do
      let word ← space.load addr n
      return push word)
    (hpoke : ∀ v, pokeValue numerals space addr type v =
      some <$> space.write addr (toLE n (v.toInteger numerals target.wordBits).toNat)) :
    LosslessAt numerals space addr type args ↔
      ∀ word, space.load addr n = .ok word →
        ((push word).toInteger numerals target.wordBits).setWidth (8 * n) = word := by
  rw [LosslessAt, hpeek]
  constructor
  · intro h word hload
    have hwrite := (pokeAt_same_iff (hpoke (push word))).mp (h _ (by rw [hload]; rfl))
    rwa [← Memory.toLE_setWidth, Space.write_toLE_eq_self_iff hload hn] at hwrite
  · intro h v hv
    rcases Fallible.bind_eq_ok.mp hv with ⟨word, hload, heq⟩
    cases heq
    rw [pokeAt_same_iff (hpoke _), ← Memory.toLE_setWidth, Space.write_toLE_eq_self_iff hload hn]
    exact h word hload

theorem setWidth_ofInteger_of_le {k w : Nat} (hk : 0 < k) (hkw : k ≤ w) (h54 : k ≤ 54)
    (word : BitVec k) : ((Value.ofInteger word).toInteger numerals w).setWidth k = word := by
  rw [toInteger_ofInteger_of_le hk hkw h54, setWidth_signExtend _ hkw]

/-- The integer types of up to 32 bits. -/
theorem losslessAt_integer {n : Nat} (hpos : 0 < n) (hn : n ≤ 4)
    (hpeek : peekAt numerals space addr type args = do
      let word ← space.load addr n
      return .ofInteger word)
    (hpoke : ∀ v, pokeValue numerals space addr type v =
      some <$> space.write addr (toLE n (v.toInteger numerals target.wordBits).toNat)) :
    LosslessAt numerals space addr type args := by
  have hwords : 4 ≤ 2 ^ target.wordBits ∧ 32 ≤ target.wordBits := by
    cases target <;> decide
  rw [losslessAt_integer_iff (le_trans hn hwords.1) hpeek hpoke]
  intro word _
  exact setWidth_ofInteger_of_le (by omega) (by omega) (by omega) word

theorem losslessAt_addr_iff (htype : knTypeOf numerals target type = some .addr) :
    LosslessAt numerals space addr type args ↔
      (target = .aarch64 → ∀ word, space.load addr 8 = .ok word → Survives word) := by
  have hpoke : ∀ v, pokeValue numerals space addr type v = some <$>
      space.write addr (toLE target.wordBytes (v.toInteger numerals target.wordBits).toNat) := by
    intro v
    simp only [pokeValue, htype]
  have hpeek : peekAt numerals space addr type args = do
      let word ← space.load addr target.wordBytes
      return .ofInteger (word.setWidth target.wordBits) := by
    simp only [peekAt, htype]
  cases target with
  | armv7 =>
      rw [losslessAt_integer_iff (n := 4) (by decide) hpeek hpoke]
      refine iff_of_true (fun word _ => ?_) (by simp)
      have hsame : word.setWidth 32 = word := BitVec.setWidth_eq word
      change ((Value.ofInteger (word.setWidth 32)).toInteger numerals 32).setWidth 32 = word
      rw [hsame]
      exact setWidth_ofInteger_of_le (by decide) (by decide) (by decide) word
  | aarch64 =>
      rw [losslessAt_integer_iff (n := 8) (by decide) hpeek hpoke]
      have hsurvives : ∀ word : BitVec 64,
          ((Value.ofInteger (word.setWidth 64)).toInteger numerals 64).setWidth 64 = word ↔
            Survives word := by
        intro word
        rw [BitVec.setWidth_eq, BitVec.setWidth_eq, toInteger_ofInteger_eq_iff]
      exact ⟨fun h _ word hload => (hsurvives word).mp (h word hload),
        fun h word hload => (hsurvives word).mpr (h rfl word hload)⟩

/-- A string holds the bytes themselves. -/
theorem losslessAt_bytes (htype : knTypeOf numerals target type = some .bytes) :
    LosslessAt numerals space addr type args := by
  intro v hv
  simp only [peekAt, htype] at hv
  cases args with
  | nil =>
      -- without a size nothing is read, and nothing is written
      cases hv
      have hpoke : pokeValue numerals space addr type .nil = some <$> .ok space := by
        simp only [pokeValue, htype]
        rfl
      exact (pokeAt_same_iff hpoke).mpr rfl
  | cons size args =>
      rcases Fallible.bind_eq_ok.mp hv with ⟨bs, hread, heq⟩
      cases heq
      have hpoke : pokeValue numerals space addr type (.string bs) =
          some <$> space.write addr bs := by
        simp only [pokeValue, htype]
        rfl
      exact (pokeAt_same_iff hpoke).mpr (Space.write_of_read hread)

/-- What is read is restored exactly, unless it is a pointer of AArch64 that is no double. -/
theorem lossless_iff (target : Target) (numerals : Numerals) (leaf : Leaf target.wordBits)
    {space : Space target.wordBits} {address type : Value} {args : List Value}
    {addr : BitVec target.wordBits} {t : KnType}
    (haddr : knGetAddress numerals leaf address = .ok addr)
    (htype : knTypeOf numerals target type = some t)
    (hsaved : t ∈ [KnType.addr, KnType.short, KnType.int, KnType.bytes]) :
    Lossless numerals leaf space address type args ↔
      (target = .aarch64 → t = .addr → ∀ word, space.load addr 8 = .ok word → Survives word) := by
  rw [lossless_iff_losslessAt haddr]
  cases t with
  | addr =>
      rw [losslessAt_addr_iff htype]
      exact ⟨fun h htarget _ => h htarget, fun h htarget => h htarget rfl⟩
  | short =>
      refine iff_of_true (losslessAt_integer (n := 2) (by decide) (by decide) ?_ ?_) (by simp)
      · simp only [peekAt, htype]
      · intro v
        simp only [pokeValue, htype]
  | int =>
      refine iff_of_true (losslessAt_integer (n := 4) (by decide) (by decide) ?_ ?_) (by simp)
      · simp only [peekAt, htype]
      · intro v
        simp only [pokeValue, htype]
  | bytes => exact iff_of_true (losslessAt_bytes htype) (by simp)
  | bool => simp at hsaved
  | float => simp at hsaved
  | string => simp at hsaved

/-! ## Two pointers -/

/-- A memory of AArch64 with a pointer at `0x1000`. -/
def pointing (pointer : BitVec 64) : Space (Target.wordBits .aarch64) where
  bytes := Memory.write (fun _ => 0) 0x1000#64 (toLE 8 pointer.toNat)
  mapped := fun _ => true

/-- A pointer without a tag is a double. -/
theorem lossless_foo :
    Lossless decimalNumerals fooLeaf (pointing 0x7b12345678#64) (.string [102, 111, 111])
      (.number (.finite 1)) [] := by
  have haddr : knGetAddress decimalNumerals fooLeaf (.string [102, 111, 111]) = .ok 0x1000#64 :=
    rfl
  refine (lossless_iff .aarch64 decimalNumerals fooLeaf (t := .addr) haddr rfl (by decide)).mpr ?_
  intro _ _ word hload
  have hword : (pointing 0x7b12345678#64).load 0x1000#64 8 = .ok 0x7b12345678#64 := by
    decide +kernel
  rw [hword] at hload
  cases hload
  decide +kernel

/-- With a tag in its upper byte it is rounded: the pointer that is restored is another one. -/
theorem not_lossless_tagged :
    ¬ Lossless decimalNumerals fooLeaf (pointing 0xb400007b12345678#64) (.string [102, 111, 111])
      (.number (.finite 1)) [] := by
  have haddr : knGetAddress decimalNumerals fooLeaf (.string [102, 111, 111]) = .ok 0x1000#64 :=
    rfl
  have hword : (pointing 0xb400007b12345678#64).load 0x1000#64 8 = .ok 0xb400007b12345678#64 := by
    decide +kernel
  intro h
  have hat := (lossless_iff_losslessAt haddr).mp h
  exact absurd ((losslessAt_addr_iff rfl).mp hat rfl _ hword) (by decide +kernel)

end PeekPoke
end KnShim
