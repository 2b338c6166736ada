import KnShim.Lib.CString
import KnShim.Lib.Rounding
import Mathlib.Data.Rat.Defs

/-!
# Lua.Value — Lua values, and how the API converts them

What the Lua 5.1 API makes of the values on a script's stack.  Numbers are doubles.  An integer that
is pushed is rounded to 53 bits, and a number that is read as an integer is truncated, and saturated
where `ptrdiff_t` cannot hold it.  What `printf` and `strtod` make of a number, and the conversions
between `float` and `double`, are those of the C library and the machine: a `Numerals`.
-/

namespace KnShim
namespace Lua

open Lib

/-- `lua_Number`. -/
inductive Number where
  | finite (q : ℚ)
  | negZero
  | inf (negative : Bool)
  | nan
  deriving DecidableEq

inductive Value where
  | nil
  | boolean (b : Bool)
  | number (n : Number)
  | string (bs : Bytes)
  -- tables, functions, userdata and threads
  | other
  deriving DecidableEq

/-- The conversions that Lua leaves to the C library and to the machine. -/
structure Numerals where
  /-- `lua_number2str`, the text of a number. -/
  number2str : Number → CString
  /-- `luaO_str2d`, the number that a string spells. -/
  str2d : Bytes → Option Number
  /-- `(double) f`. -/
  widen : BitVec 32 → Number
  /-- `(float) d`. -/
  narrow : Number → BitVec 32

namespace Number

/-- The value of a number. -/
def toRat : Number → Option ℚ
  | .finite q => some q
  | .negZero => some 0
  | .inf _ => none
  | .nan => none

/-- `(lua_Number) n`. -/
def ofInt (z : Int) : Number := .finite (roundInt 53 z : Int)

/-- A `double` holds the integers of at most `2 ^ 53`. -/
theorem ofInt_of_le {z : Int} (h : z.natAbs ≤ 2 ^ 53) : ofInt z = .finite z := by
  rw [ofInt, roundInt_of_le (by decide) h]

/-- The value nearest to `z` of a signed integer of `w` bits. -/
def saturate (w : Nat) (z : Int) : BitVec w :=
  BitVec.ofInt w (max (-(2 ^ (w - 1) : Nat)) (min z ((2 ^ (w - 1) : Nat) - 1)))

/-- `lua_number2integer`. -/
def toInteger (w : Nat) : Number → BitVec w
  | .finite q => saturate w (q.num.tdiv q.den)
  | .negZero => 0
  | .inf true => saturate w (-(2 ^ w : Nat))
  | .inf false => saturate w (2 ^ w : Nat)
  | .nan => 0

theorem toInt_saturate {w : Nat} (hw : 0 < w) (z : Int) :
    (saturate w z).toInt =
      max (-((2 ^ (w - 1) : Nat) : Int)) (min z (((2 ^ (w - 1) : Nat) : Int) - 1)) := by
  have hpos : 0 < 2 ^ (w - 1) := Nat.two_pow_pos _
  have hcast : (2 : Int) ^ (w - 1) = ((2 ^ (w - 1) : Nat) : Int) := by push_cast; rfl
  rw [saturate, BitVec.toInt_ofInt_eq_self hw]
  · rw [hcast]
    omega
  · rw [hcast]
    omega

/-- An integer that is pushed and read back has been rounded. -/
theorem toInteger_ofInt (w : Nat) (z : Int) :
    (ofInt z).toInteger w = saturate w (roundInt 53 z) := by
  rw [ofInt, toInteger, Rat.num_intCast, Rat.den_intCast, Int.natCast_one, Int.tdiv_one]

end Number

namespace Value

variable (numerals : Numerals)

/-- `lua_isstring`. -/
def isString : Value → Bool
  | .string _ => true
  | .number _ => true
  | _ => false

/-- `lua_tolstring`, with the length. -/
def toLString : Value → Option Bytes
  | .string bs => some bs
  | .number n => some (numerals.number2str n).bytes
  | _ => none

/-- `lua_tostring`, as C reads what it points to. -/
def toCString (v : Value) : Option CString := (v.toLString numerals).map CString.upToNul

/-- The number that a value is or spells. -/
def toNumber? : Value → Option Number
  | .number n => some n
  | .string bs => numerals.str2d bs
  | _ => none

/-- `lua_tonumber`. -/
def toNumber (v : Value) : Number := (v.toNumber? numerals).getD (.finite 0)

/-- `lua_tointeger`, as a `ptrdiff_t` of `w` bits. -/
def toInteger (w : Nat) (v : Value) : BitVec w :=
  match v.toNumber? numerals with
  | some n => n.toInteger w
  | none => 0

/-- `lua_toboolean`. -/
def toBoolean : Value → Bool
  | .nil => false
  | .boolean b => b
  | _ => true

/-- `lua_pushinteger`. -/
def ofInteger {w : Nat} (v : BitVec w) : Value := .number (.ofInt v.toInt)

/-- `lua_tolstring` gives a string exactly for what `lua_isstring` calls one. -/
theorem isSome_toLString (v : Value) : (v.toLString numerals).isSome = v.isString := by
  cases v <;> rfl

/-- The text of a number has no NUL, so C reads all of it. -/
@[simp] theorem toCString_number (n : Number) :
    (Value.number n).toCString numerals = some (numerals.number2str n) :=
  congrArg some (CString.upToNul_bytes _)

end Value

/-- `(int) lua_tointeger(script, index)` with a `ptrdiff_t` of `w` bits; what is not there is 0. -/
def luaToInt (numerals : Numerals) (w : Nat) (args : List Value) (index : Nat) : BitVec 32 :=
  (((args[index - 1]?).map (Value.toInteger numerals w)).getD 0).setWidth 32


end Lua
end KnShim
