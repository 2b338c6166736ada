import KnShim.Lib.CString

/-!
# AndrLeaf.Symbols — the symbol table of the loaded library

`LeafSymbolAddr` walks the symbol table and compares names with `strcmp`, which reads the string
table up to the first difference.  `Leaf.Binds` says on the table alone what the walk finds: the
first entry of that name, and `NULL` when there is none.
-/

namespace KnShim
namespace AndrLeaf

open Lib

/-- What is used of a `LeafSym`. -/
structure LeafSym (w : Nat) where
  stName : Nat
  stValue : BitVec w
  deriving DecidableEq, Repr

/-- What is used of a `Leaf`; `sym_count` is the number of entries. -/
structure Leaf (w : Nat) where
  strtab : Bytes
  symtab : List (LeafSym w)

/-- `strcmp(...) == 0` of the string at the start of an array and a string without its NUL. -/
def strcmpEq : Bytes → Bytes → Fallible Bool
  | [], _ => .error .outOfBounds
  | x :: _, [] => .ok (x = 0)
  | x :: xs, b :: bs => if x = b then strcmpEq xs bs else .ok false

variable {w : Nat}

/-- The loop of `LeafSymbolAddr`. -/
def findSymbol (strtab : Bytes) (symbolName : Option CString) :
    List (LeafSym w) → Fallible (BitVec w)
  | [] => .ok 0
  | sym :: syms =>
      match symbolName with
      | none => .error .nullDeref
      | some name => do
          if ← strcmpEq (strtab.drop sym.stName) name.bytes then
            return sym.stValue
          else
            findSymbol strtab symbolName syms

/-- `LeafSymbolAddr`. -/
def leafSymbolAddr (self : Leaf w) (symbolName : Option CString) : Fallible (BitVec w) :=
  findSymbol self.strtab symbolName self.symtab

/-! ## `strcmp` -/

/-- The array differs from the name before it ends. -/
def Differs (name : CString) (xs : Bytes) : Prop := ¬ name.Starts xs ∧ ¬ xs <+: name.bytes

/-- When the comparison finds the name, and when it runs off the end of the array. -/
theorem strcmpEq_iff (xs bs : Bytes) :
    (strcmpEq xs bs = .ok true ↔ ∃ rest, xs = bs ++ 0 :: rest) ∧
      ((∃ e, strcmpEq xs bs = .error e) ↔ xs <+: bs) := by
  -- induction on the name; the array is read along with it
  induction bs generalizing xs with
  | nil =>
      cases xs with
      | nil => simp [strcmpEq]
      | cons x xs => simp [strcmpEq]
  | cons b bs ih =>
      cases xs with
      | nil => simp [strcmpEq]
      | cons x xs =>
          -- equal bytes go on, different ones end the comparison
          by_cases hx : x = b
          · simp [strcmpEq, hx, ih xs, List.cons_prefix_cons]
          · simp [strcmpEq, hx, List.cons_prefix_cons]

theorem strcmpEq_true_iff {xs : Bytes} {name : CString} :
    strcmpEq xs name.bytes = .ok true ↔ name.Starts xs := (strcmpEq_iff xs name.bytes).1

theorem strcmpEq_false_iff {xs : Bytes} {name : CString} :
    strcmpEq xs name.bytes = .ok false ↔ Differs name xs := by
  rcases strcmpEq_iff xs name.bytes with ⟨htrue, herror⟩
  rw [Differs, CString.Starts, ← htrue, ← herror]
  -- of the three results the other two are excluded
  rcases strcmpEq xs name.bytes with e | found
  · simp
  · cases found <;> simp

/-! ## The walk -/

namespace Leaf

variable (self : Leaf w)

/-- Where the name of an entry is. -/
def nameOf (sym : LeafSym w) : Bytes := self.strtab.drop sym.stName

/-- The first entry of that name has the value. -/
def Entry (name : CString) (a : BitVec w) : Prop :=
  ∃ before sym after, self.symtab = before ++ sym :: after ∧
    (∀ other ∈ before, Differs name (self.nameOf other)) ∧ name.Starts (self.nameOf sym) ∧
      sym.stValue = a

/-- The name stands for the address. -/
def Binds (name : CString) (a : BitVec w) : Prop :=
  self.Entry name a ∨ (∀ sym ∈ self.symtab, Differs name (self.nameOf sym)) ∧ a = 0

end Leaf

/-- One round of the walk. -/
theorem findSymbol_cons {strtab : Bytes} {name : CString} {sym : LeafSym w}
    {syms : List (LeafSym w)} {a : BitVec w} :
    findSymbol strtab (some name) (sym :: syms) = .ok a ↔
      name.Starts (strtab.drop sym.stName) ∧ sym.stValue = a ∨
        Differs name (strtab.drop sym.stName) ∧ findSymbol strtab (some name) syms = .ok a := by
  rw [← strcmpEq_true_iff, ← strcmpEq_false_iff, findSymbol, Fallible.bind_eq_ok]
  constructor
  · rintro ⟨found, hcmp, hrest⟩
    cases found with
    | true =>
        cases hrest
        exact Or.inl ⟨hcmp, rfl⟩
    | false => exact Or.inr ⟨hcmp, hrest⟩
  · rintro (⟨hcmp, rfl⟩ | ⟨hcmp, hrest⟩)
    · exact ⟨true, hcmp, rfl⟩
    · exact ⟨false, hcmp, hrest⟩

theorem findSymbol_eq_ok_iff {strtab : Bytes} {name : CString} {syms : List (LeafSym w)}
    {a : BitVec w} :
    findSymbol strtab (some name) syms = .ok a ↔
      (∃ before sym after, syms = before ++ sym :: after ∧
        (∀ other ∈ before, Differs name (strtab.drop other.stName)) ∧
          name.Starts (strtab.drop sym.stName) ∧ sym.stValue = a) ∨
        (∀ sym ∈ syms, Differs name (strtab.drop sym.stName)) ∧ a = 0 := by
  -- induction on the table
  induction syms with
  | nil =>
      constructor
      · intro h
        cases h
        exact Or.inr ⟨by simp, rfl⟩
      · rintro (⟨before, sym, after, hsyms, _⟩ | ⟨_, rfl⟩)
        · simp at hsyms
        · rfl
  | cons sym syms ih =>
      rw [findSymbol_cons, ih]
      constructor
      · rintro (⟨hname, ha⟩ | ⟨hother, ⟨before, s, after, rfl, hbefore, hrest⟩ | ⟨hall, ha⟩⟩)
        · exact Or.inl ⟨[], sym, syms, rfl, by simp, hname, ha⟩
        · exact Or.inl ⟨sym :: before, s, after, rfl,
            List.forall_mem_cons.mpr ⟨hother, hbefore⟩, hrest⟩
        · exact Or.inr ⟨List.forall_mem_cons.mpr ⟨hother, hall⟩, ha⟩
      · rintro (⟨before, s, after, hsyms, hbefore, hrest⟩ | ⟨hall, ha⟩)
        -- the entry is the first one or stands behind it
        · cases before with
          | nil =>
              cases hsyms
              exact Or.inl hrest
          | cons first before =>
              cases hsyms
              rcases List.forall_mem_cons.mp hbefore with ⟨hother, hbefore⟩
              exact Or.inr ⟨hother, Or.inl ⟨before, s, after, rfl, hbefore, hrest⟩⟩
        · rcases List.forall_mem_cons.mp hall with ⟨hother, hall⟩
          exact Or.inr ⟨hother, Or.inr ⟨hall, ha⟩⟩

/-- `LeafSymbolAddr` returns what the name stands for. -/
theorem leafSymbolAddr_eq_ok_iff {self : Leaf w} {name : CString} {a : BitVec w} :
    leafSymbolAddr self (some name) = .ok a ↔ self.Binds name a :=
  findSymbol_eq_ok_iff

end AndrLeaf
end KnShim
