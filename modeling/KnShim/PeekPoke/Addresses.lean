import KnShim.PeekPoke.Primitives

/-!
# PeekPoke.Addresses — what an address argument stands for

The address argument of a memory primitive is a number or the name of a symbol.  `lua_isstring` is
true of numbers too, so `knGetAddress` looks the text of a number up in the symbol table and never
uses its value.  A number therefore stands for its own value only when the table says so.
-/

namespace KnShim
namespace PeekPoke

open Lib Lua AndrLeaf

/-- The primitives that take an address. -/
inductive Primitive where
  | peek
  | poke
  | invertBranch
  deriving DecidableEq, Repr

variable {target : Target} (numerals : Numerals) (leaf : Leaf target.wordBits)

/-- A call from a script. -/
def Primitive.call : Primitive → Space target.wordBits → List Value →
    Fallible (Value × Space target.wordBits)
  | .peek => knPeek numerals leaf
  | .poke => knPoke numerals leaf
  | .invertBranch => knInvertBranch numerals leaf

/-- The same call, on an address instead of its first argument. -/
def Primitive.operate (addr : BitVec target.wordBits) : Primitive → Space target.wordBits →
    List Value → Fallible (Value × Space target.wordBits)
  | .peek, space, type :: args => do
      let v ← peekAt numerals space addr type args
      return (v, space)
  | .peek, space, [] => return (.nil, space)
  | .poke, space, type :: args => pokeAt numerals space addr type (args.headD .nil)
  | .poke, space, [] => return (.nil, space)
  | .invertBranch, space, _ => invertBranchAt space addr

/-- With the value as its first argument, every primitive operates on the address. -/
def ActsOn (v : Value) (addr : BitVec target.wordBits) : Prop :=
  ∀ (p : Primitive) space args,
    p.call numerals leaf space (v :: args) = p.operate numerals addr space args

/-- The two values are the same as first arguments. -/
def SameAddress (v v' : Value) : Prop :=
  ∀ (p : Primitive) space args,
    p.call numerals leaf space (v :: args) = p.call numerals leaf space (v' :: args)

/-! ## Reading the address back from what the primitives do -/

/-- A memory with a single byte that is not zero. -/
def marked (addr : BitVec target.wordBits) : Space target.wordBits where
  bytes := fun p => if p = addr then 1 else 0
  mapped := fun _ => true

/-- `KN_TYPE_BYTES` and the size 1. -/
def oneByte : List Value := [.number (.finite 7), .number (.finite 1)]

theorem operate_marked (addr probe : BitVec target.wordBits) :
    Primitive.peek.operate numerals addr (marked probe) oneByte =
      .ok (.string [if addr = probe then 1 else 0], marked probe) := by
  -- both numbers are small, so they convert to themselves on either machine
  have htype : knTypeOf numerals target (.number (.finite 7)) = some .bytes := by
    cases target <;> rfl
  have hsize : ((Value.number (.finite 1)).toInteger numerals target.wordBits).toNat = 1 := by
    cases target <;> rfl
  have hread : (marked probe).read addr 1 = .ok [if addr = probe then 1 else 0] := by
    simp [Space.read, Space.covers, Memory.read, marked]
  simp only [Primitive.operate, oneByte, peekAt, htype, hsize, hread]
  rfl

variable {numerals leaf}

/-- A value stands for an address exactly when `knGetAddress` says so. -/
theorem actsOn_iff {v : Value} {addr : BitVec target.wordBits} :
    ActsOn numerals leaf v addr ↔ knGetAddress numerals leaf v = .ok addr := by
  constructor
  -- peek at a byte that tells the address from all others
  · intro h
    have hprobe := h .peek (marked addr) oneByte
    rw [operate_marked] at hprobe
    -- a call that faults or looks elsewhere gives another answer
    cases hget : knGetAddress numerals leaf v with
    | error e =>
        simp [Primitive.call, knPeek, oneByte, hget] at hprobe
    | ok b =>
        have hcall : Primitive.peek.call numerals leaf (marked addr) (v :: oneByte) =
            Primitive.peek.operate numerals b (marked addr) oneByte := by
          simp only [Primitive.call, knPeek, oneByte, hget, Fallible.ok_bind, Primitive.operate]
        rw [hcall, operate_marked] at hprobe
        -- only the byte at `addr` is not zero
        by_cases hb : b = addr
        · rw [hb]
        · simp [hb] at hprobe
  -- the address is evaluated first and used for nothing else
  · intro hget p space args
    cases p with
    | peek =>
        cases args with
        | nil => rfl
        | cons type args =>
            simp only [Primitive.call, knPeek, hget, Fallible.ok_bind, Primitive.operate]
    | poke =>
        cases args with
        | nil => rfl
        | cons type args =>
            simp only [Primitive.call, knPoke, hget, Fallible.ok_bind, Primitive.operate]
    | invertBranch =>
        simp only [Primitive.call, knInvertBranch, hget, Fallible.ok_bind, Primitive.operate]

theorem sameAddress_iff {v v' : Value} {addr : BitVec target.wordBits}
    (h : ActsOn numerals leaf v' addr) :
    SameAddress numerals leaf v v' ↔ ActsOn numerals leaf v addr := by
  constructor
  · intro hsame p space args
    rw [hsame p space args, h p space args]
  · intro hacts p space args
    rw [hacts p space args, h p space args]

/-! ## The routes from a value to an address -/

theorem actsOn_string_iff {s : Bytes} {addr : BitVec target.wordBits} :
    ActsOn numerals leaf (.string s) addr ↔ leaf.Binds (CString.upToNul s) addr := by
  rw [actsOn_iff, ← leafSymbolAddr_eq_ok_iff]
  rfl

/-- A number is looked up by its text. -/
theorem actsOn_number_iff {n : Number} {addr : BitVec target.wordBits} :
    ActsOn numerals leaf (.number n) addr ↔ leaf.Binds (numerals.number2str n) addr := by
  rw [actsOn_iff, ← leafSymbolAddr_eq_ok_iff, ← Value.toCString_number]
  rfl

theorem knSymbolAddr_string {s : Bytes} {addr : BitVec target.wordBits}
    (h : leaf.Binds (CString.upToNul s) addr) :
    knSymbolAddr numerals leaf [.string s] = .ok (.ofInteger addr) := by
  have hfind : leafSymbolAddr leaf ((Value.string s).toCString numerals) = .ok addr :=
    leafSymbolAddr_eq_ok_iff.mpr h
  rw [knSymbolAddr, hfind]
  rfl

/-! ## Numbers that are addresses -/

/-- The number is the value of the address. -/
def IsAddress (n : Number) (addr : BitVec target.wordBits) : Prop :=
  n.toRat = some (addr.toNat : ℚ)

/-- A double can hold the address. -/
def Representable (addr : BitVec target.wordBits) : Prop :=
  roundNat 53 addr.toNat = addr.toNat

/-- What `knSymbolAddr` returns for a low address is the number that is the address. -/
theorem isAddress_ofInteger {addr : BitVec target.wordBits} (hsign : addr.msb = false)
    (hlow : addr.toNat < 2 ^ 53) : IsAddress (.ofInt addr.toInt) addr := by
  have hint : addr.toInt = addr.toNat := BitVec.toInt_eq_toNat_of_msb hsign
  rw [IsAddress, Number.ofInt, hint, roundInt_of_lt (by decide) hlow]
  rfl

/-! ## Consistency -/

/-- Numbers and names as address arguments do what their values say, and what `knSymbolAddr` returns
can be used instead of the name. -/
structure Consistent (numerals : Numerals) (leaf : Leaf target.wordBits) (n : Number) (s : Bytes) :
    Prop where
  number : ∀ addr, IsAddress n addr → ActsOn numerals leaf (.number n) addr
  string : ∀ addr, leafSymbolAddr leaf (some (CString.upToNul s)) = .ok addr →
    ActsOn numerals leaf (.string s) addr
  symbol : ∀ addr v, leaf.Entry (CString.upToNul s) addr → Representable addr →
    knSymbolAddr numerals leaf [.string s] = .ok v → SameAddress numerals leaf v (.string s)

/-- The symbol table binds the text of the number to the number, and the text of the address of the
symbol to that address. -/
structure TextsBound (numerals : Numerals) (leaf : Leaf target.wordBits) (n : Number) (s : Bytes) :
    Prop where
  number : ∀ addr, IsAddress n addr → leaf.Binds (numerals.number2str n) addr
  symbol : ∀ addr, leaf.Entry (CString.upToNul s) addr → Representable addr →
    leaf.Binds (numerals.number2str (.ofInt addr.toInt)) addr

/-- Address arguments are consistent exactly when the texts of the numbers are bound in the symbol
table. -/
theorem consistent_iff (numerals : Numerals) (leaf : Leaf target.wordBits) (n : Number)
    (s : Bytes) : Consistent numerals leaf n s ↔ TextsBound numerals leaf n s := by
  constructor
  · intro h
    refine ⟨fun addr hn => actsOn_number_iff.mp (h.number addr hn), fun addr hentry hrep => ?_⟩
    -- the name stands for the address, so the two arguments can be compared
    have hbinds : leaf.Binds (CString.upToNul s) addr := Or.inl hentry
    have hsame := h.symbol addr _ hentry hrep (knSymbolAddr_string hbinds)
    exact actsOn_number_iff.mp ((sameAddress_iff (actsOn_string_iff.mpr hbinds)).mp hsame)
  · intro h
    refine ⟨fun addr hn => actsOn_number_iff.mpr (h.number addr hn), fun addr hfind => ?_,
      fun addr v hentry hrep hv => ?_⟩
    -- names are always looked up as names
    · exact actsOn_string_iff.mpr (leafSymbolAddr_eq_ok_iff.mp hfind)
    · have hbinds : leaf.Binds (CString.upToNul s) addr := Or.inl hentry
      rw [knSymbolAddr_string hbinds] at hv
      cases hv
      exact (sameAddress_iff (actsOn_string_iff.mpr hbinds)).mpr
        (actsOn_number_iff.mpr (h.symbol addr hentry hrep))

/-! ## A raw address -/

/-- Numbers printed in decimal, as `%.14g` prints integers of at most 14 digits. -/
def decimalNumerals : Numerals where
  number2str
    | .finite q => CString.upToNul ((Nat.toDigits 10 q.num.natAbs).map fun c => UInt8.ofNat c.toNat)
    | _ => CString.empty
  str2d := fun _ => none
  widen := fun _ => .nan
  narrow := fun _ => 0

/-- `foo` at `0x1000`. -/
def fooLeaf : Leaf (Target.wordBits .aarch64) where
  strtab := [0, 102, 111, 111, 0]
  symtab := [⟨0, 0⟩, ⟨1, 0x1000⟩]

/-- The number `0x1000` is looked up as the symbol `4096`, which there is not. -/
theorem number_not_consistent :
    ¬ Consistent decimalNumerals fooLeaf (.finite 4096) [102, 111, 111] := by
  intro h
  have hacts := h.number 0x1000 rfl
  -- the walk ends without an entry, and 0 is returned
  have hnull : knGetAddress decimalNumerals fooLeaf (.number (.finite 4096)) = .ok 0 := rfl
  have hget := actsOn_iff.mp hacts
  rw [hnull] at hget
  exact absurd hget (by decide)

end PeekPoke
end KnShim
