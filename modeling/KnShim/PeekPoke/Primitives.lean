import KnShim.AndrLeaf.Symbols
import KnShim.Lib.Memory
import KnShim.Lua.Value

/-!
# PeekPoke.Primitives — the memory primitives of scripts

`knSymbolAddr`, `knPeek`, `knPoke` and `knInvertBranch`.  A script's arguments are a list, so that
`lua_gettop` is its length and an argument beyond it is `nil`.  The part of each primitive behind the
evaluation of its address is a definition of its own: `peekAt`, `pokeAt` and `invertBranchAt`.
-/

namespace KnShim
namespace PeekPoke

open Lib Lua AndrLeaf

/-- The types of `knPeek` and `knPoke`. -/
inductive KnType where
  | addr
  | bool
  | short
  | int
  | float
  | string
  | bytes
  deriving DecidableEq, Repr

/-- `KN_TYPE_ADDR` and so on, which count from 1. -/
def KnType.ofInt : Int → Option KnType
  | 1 => some .addr
  | 2 => some .bool
  | 3 => some .short
  | 4 => some .int
  | 5 => some .float
  | 6 => some .string
  | 7 => some .bytes
  | _ => none

section Primitives

variable {target : Target} (numerals : Numerals) (leaf : Leaf target.wordBits)

/-- `knGetAddress`; `KNGetSymbolAddr` is `LeafSymbolAddr` on the library that was loaded. -/
def knGetAddress (v : Value) : Fallible (BitVec target.wordBits) :=
  if v.isString then
    leafSymbolAddr leaf (v.toCString numerals)
  else
    .ok (v.toInteger numerals target.wordBits)

/-- `int type = lua_tointeger(script, 2)`. -/
def knTypeOf (target : Target) (v : Value) : Option KnType :=
  KnType.ofInt ((v.toInteger numerals target.wordBits).setWidth 32).toInt

/-- `knSymbolAddr`. -/
def knSymbolAddr : List Value → Fallible Value
  | [] => .ok .nil
  | name :: _ => do
      let sym ← leafSymbolAddr leaf (name.toCString numerals)
      return .ofInteger sym

/-- `knPeek` behind the evaluation of its address. -/
def peekAt (space : Space target.wordBits) (addr : BitVec target.wordBits) (type : Value)
    (args : List Value) : Fallible Value :=
  match knTypeOf numerals target type with
  | some .addr => do
      let v ← space.load addr target.wordBytes
      return .ofInteger (v.setWidth target.wordBits)
  | some .bool => do
      let v ← space.load addr 1
      return .boolean (v ≠ 0)
  | some .short => do
      let v ← space.load addr 2
      return .ofInteger v
  | some .int => do
      let v ← space.load addr 4
      return .ofInteger v
  | some .float => do
      let v ← space.load addr 4
      return .number (numerals.widen v)
  | some .string =>
      -- `lua_pushstring` makes nil of NULL
      if addr = 0 then
        return .nil
      else do
        let bs ← space.cstring addr (2 ^ target.wordBits)
        return .string bs
  | some .bytes =>
      match args with
      | [] => return .nil
      | size :: _ => do
          let bs ← space.read addr (size.toInteger numerals target.wordBits).toNat
          return .string bs
  | none => return .nil

/-- `knPeek`. -/
def knPeek (space : Space target.wordBits) : List Value → Fallible (Value × Space target.wordBits)
  | address :: type :: args => do
      let addr ← knGetAddress numerals leaf address
      let v ← peekAt numerals space addr type args
      return (v, space)
  | _ => return (.nil, space)

/-- The switch of `knPoke`: the memory after the write, or `none` where the type is unknown. -/
def pokeValue (space : Space target.wordBits) (addr : BitVec target.wordBits) (type value : Value) :
    Fallible (Option (Space target.wordBits)) :=
  let integer := value.toInteger numerals target.wordBits
  match knTypeOf numerals target type with
  | some .addr => some <$> space.write addr (toLE target.wordBytes integer.toNat)
  | some .bool => some <$> space.write addr [if value.toBoolean then 1 else 0]
  | some .short => some <$> space.write addr (toLE 2 integer.toNat)
  | some .int => some <$> space.write addr (toLE 4 integer.toNat)
  | some .float =>
      some <$> space.write addr (toLE 4 (numerals.narrow (value.toNumber numerals)).toNat)
  | some .string =>
      match value.toCString numerals with
      | none => .error .nullDeref
      | some s => some <$> space.write addr (s.bytes ++ [0])
  | some .bytes =>
      match value.toLString numerals with
      -- `memcpy` of no bytes
      | none => return some space
      | some bs => some <$> space.write addr bs
  | none => return none

/-- `knPoke` behind the evaluation of its address. -/
def pokeAt (space : Space target.wordBits) (addr : BitVec target.wordBits) (type value : Value) :
    Fallible (Value × Space target.wordBits) := do
  match ← pokeValue numerals space addr type value with
  | none => return (.nil, space)
  | some space => return (.ofInteger addr, space)

/-- `knPoke`. -/
def knPoke (space : Space target.wordBits) : List Value → Fallible (Value × Space target.wordBits)
  | address :: type :: args => do
      let addr ← knGetAddress numerals leaf address
      pokeAt numerals space addr type (args.headD .nil)
  | _ => return (.nil, space)

/-- `invert_branch`, with the code that it returns. -/
def invertBranch (space : Space target.wordBits) (addr : BitVec target.wordBits) :
    Fallible (Nat × Space target.wordBits) := do
  let instr : BitVec 32 ← space.load addr 4
  match target with
  | .armv7 =>
      if instr >>> 29 ≠ 0b111 then
        let instr := instr ^^^ 0x10000000
        return (0, ← space.write addr (toLE 4 instr.toNat))
      else
        return (1, space)
  | .aarch64 =>
      if instr >>> 24 = 0b01010100 then
        let instr := instr ^^^ 1
        return (0, ← space.write addr (toLE 4 instr.toNat))
      else
        return (1, space)

/-- `knInvertBranch` behind the evaluation of its address. -/
def invertBranchAt (space : Space target.wordBits) (addr : BitVec target.wordBits) :
    Fallible (Value × Space target.wordBits) := do
  let (code, space) ← invertBranch space addr
  if code ≠ 0 then
    return (.nil, space)
  else
    return (.ofInteger addr, space)

/-- `knInvertBranch`. -/
def knInvertBranch (space : Space target.wordBits) :
    List Value → Fallible (Value × Space target.wordBits)
  | address :: _ => do
      let addr ← knGetAddress numerals leaf address
      invertBranchAt space addr
  | [] => return (.nil, space)

end Primitives

end PeekPoke
end KnShim
