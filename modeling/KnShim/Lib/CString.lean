import KnShim.Lib.Fallible

/-!
# CString — NUL-terminated strings in arrays

A `CString` is the part of a string before its NUL, so it has no NUL itself.  `CString.read` is what
`strlen` and its kind see in an array; `CString.store` writes a string and its NUL at an offset.
-/

namespace KnShim
namespace Lib

/-- The bytes of a C string before its NUL. -/
@[ext] structure CString where
  bytes : Bytes
  noNul : (0 : UInt8) ∉ bytes
  deriving DecidableEq

/-- `xs[at .. at + n]`. -/
def readSlice (xs : Bytes) (start n : Nat) : Fallible Bytes :=
  if start + n ≤ xs.length then .ok ((xs.drop start).take n) else .error .outOfBounds

theorem readSlice_of_le {xs : Bytes} {start n : Nat} (h : start + n ≤ xs.length) :
    readSlice xs start n = .ok ((xs.drop start).take n) := if_pos h

namespace CString

/-- `strlen`. -/
def length (s : CString) : Nat := s.bytes.length

def empty : CString := ⟨[], List.not_mem_nil⟩

def cons (b : UInt8) (h : b ≠ 0) (s : CString) : CString where
  bytes := b :: s.bytes
  noNul := by
    intro hmem
    rcases List.mem_cons.mp hmem with h0 | h0
    · exact h h0.symm
    · exact s.noNul h0

/-- The first `n` bytes, as a string of their own. -/
def take (s : CString) (n : Nat) : CString where
  bytes := s.bytes.take n
  noNul := fun h => s.noNul (List.mem_of_mem_take h)

/-- `s + n`. -/
def drop (s : CString) (n : Nat) : CString where
  bytes := s.bytes.drop n
  noNul := fun h => s.noNul (List.mem_of_mem_drop h)

@[simp] theorem take_bytes (s : CString) (n : Nat) : (s.take n).bytes = s.bytes.take n := rfl

@[simp] theorem drop_bytes (s : CString) (n : Nat) : (s.drop n).bytes = s.bytes.drop n := rfl

/-- The bytes before the first NUL. -/
def upToNul : Bytes → CString
  | [] => empty
  | b :: bs => if h : b = 0 then empty else (upToNul bs).cons b h

/-- The bytes of a literal. -/
def ascii (s : String) : Bytes := s.toList.map (fun c => UInt8.ofNat c.toNat)

/-- A string literal. -/
def literal (s : String) : CString := upToNul (ascii s)

/-- The string that starts at the first byte of the array. -/
def read (xs : Bytes) : Fallible CString :=
  if (0 : UInt8) ∈ xs then .ok (upToNul xs) else .error .outOfBounds

/-- The array holds the string at its start. -/
def Starts (s : CString) (xs : Bytes) : Prop := ∃ rest, xs = s.bytes ++ 0 :: rest

theorem upToNul_append_nul (s : CString) (rest : Bytes) :
    upToNul (s.bytes ++ 0 :: rest) = s := by
  rcases s with ⟨bytes, h⟩
  induction bytes with
  | nil => rfl
  | cons b bytes ih =>
      -- no byte of the string ends it early
      have hb : b ≠ 0 := fun h0 => h (h0 ▸ List.mem_cons_self)
      have htail : (0 : UInt8) ∉ bytes := fun h0 => h (List.mem_cons_of_mem b h0)
      apply CString.ext
      rw [List.cons_append, upToNul, dif_neg hb, ih htail]
      rfl

/-- Bytes without a NUL are a string already. -/
theorem upToNul_bytes (s : CString) : upToNul s.bytes = s := by
  rcases s with ⟨bytes, h⟩
  induction bytes with
  | nil => rfl
  | cons b bytes ih =>
      have hb : b ≠ 0 := fun h0 => h (h0 ▸ List.mem_cons_self)
      have htail : (0 : UInt8) ∉ bytes := fun h0 => h (List.mem_cons_of_mem b h0)
      apply CString.ext
      rw [upToNul, dif_neg hb, ih htail]
      rfl

/-- The string depends on its own bytes and its NUL alone. -/
theorem upToNul_congr {xs ys : Bytes}
    (h : ys.take ((upToNul xs).length + 1) = xs.take ((upToNul xs).length + 1)) :
    upToNul ys = upToNul xs := by
  induction xs generalizing ys with
  | nil =>
      cases ys with
      | nil => rfl
      | cons y ys => simp at h
  | cons b xs ih =>
      cases ys with
      | nil => simp at h
      | cons y ys =>
          rw [List.take_succ_cons, List.take_succ_cons, List.cons.injEq] at h
          rcases h with ⟨rfl, htail⟩
          by_cases hy : y = 0
          · rw [upToNul, upToNul, dif_pos hy, dif_pos hy]
          · have hlength : (upToNul (y :: xs)).length = (upToNul xs).length + 1 := by
              rw [upToNul, dif_neg hy]
              rfl
            rw [hlength] at htail
            apply CString.ext
            rw [upToNul, upToNul, dif_neg hy, dif_neg hy, ih htail]

/-- A NUL anywhere in the array ends the string. -/
theorem starts_upToNul {xs : Bytes} (h : (0 : UInt8) ∈ xs) : (upToNul xs).Starts xs := by
  induction xs with
  | nil => cases h
  | cons b xs ih =>
      rw [upToNul]
      by_cases hb : b = 0
      · rw [dif_pos hb]
        exact ⟨xs, by rw [hb]; rfl⟩
      · rw [dif_neg hb]
        have htail : (0 : UInt8) ∈ xs := (List.mem_cons.mp h).resolve_left (fun h0 => hb h0.symm)
        rcases ih htail with ⟨rest, hrest⟩
        exact ⟨rest, congrArg (List.cons b) hrest⟩

theorem read_of_starts {s : CString} {xs : Bytes} (h : s.Starts xs) : read xs = .ok s := by
  rcases h with ⟨rest, rfl⟩
  have hmem : (0 : UInt8) ∈ s.bytes ++ 0 :: rest := by simp
  rw [read, if_pos hmem, upToNul_append_nul]

/-- Write the string and its NUL at an offset. -/
def store (dest : Bytes) (offset : Nat) (s : CString) : Fallible Bytes :=
  if offset + s.length + 1 ≤ dest.length then
    .ok (dest.take offset ++ s.bytes ++ 0 :: dest.drop (offset + s.length + 1))
  else
    .error .outOfBounds

/-- The strings one after the other. -/
def append (s t : CString) : CString where
  bytes := s.bytes ++ t.bytes
  noNul := by
    intro h
    rcases List.mem_append.mp h with h | h
    · exact s.noNul h
    · exact t.noNul h

@[simp] theorem append_bytes (s t : CString) : (s.append t).bytes = s.bytes ++ t.bytes := rfl

@[simp] theorem append_length (s t : CString) : (s.append t).length = s.length + t.length :=
  List.length_append

/-- What `%s%s...` writes. -/
def concat : List CString → CString
  | [] => empty
  | s :: ss => s.append (concat ss)

/-- `strcpy` to the start of an array that is large enough. -/
theorem store_zero (s : CString) {dest : Bytes} (h : s.length + 1 ≤ dest.length) :
    ∃ dest', store dest 0 s = .ok dest' ∧ s.Starts dest' ∧ dest'.length = dest.length := by
  refine ⟨s.bytes ++ 0 :: dest.drop (s.length + 1), ?_, ⟨_, rfl⟩, ?_⟩
  · rw [store, Nat.zero_add, if_pos h]
    rfl
  · simp only [List.length_append, List.length_cons, List.length_drop]
    simp only [length] at h ⊢
    omega

/-- `strcat`: the array keeps its string and holds the other one behind it. -/
theorem store_append {s t : CString} {dest : Bytes} (hs : s.Starts dest)
    (h : s.length + t.length + 1 ≤ dest.length) :
    ∃ dest', store dest s.length t = .ok dest' ∧ (s.append t).Starts dest' ∧
      dest'.length = dest.length := by
  rcases hs with ⟨rest, rfl⟩
  refine ⟨s.bytes ++ t.bytes ++ 0 :: (s.bytes ++ 0 :: rest).drop (s.length + t.length + 1),
    ?_, ⟨_, rfl⟩, ?_⟩
  · rw [store, if_pos h]
    have htake : (s.bytes ++ 0 :: rest).take s.length = s.bytes := List.take_left' rfl
    rw [htake]
  · simp only [List.length_append, List.length_cons, List.length_drop] at h ⊢
    simp only [length] at h ⊢
    omega

/-- A NUL behind its first part cuts a string back to that part. -/
theorem starts_set_nul {s t : CString} {dest : Bytes} (h : (s.append t).Starts dest) :
    s.Starts (dest.set s.length 0) := by
  rcases h with ⟨rest, rfl⟩
  rw [append_bytes, List.append_assoc]
  -- the byte behind the first part, which may be the old NUL
  cases hrest : t.bytes ++ 0 :: rest with
  | nil => simp at hrest
  | cons b tail =>
      refine ⟨tail, ?_⟩
      rw [length, List.set_append_right _ _ (Nat.le_refl _), Nat.sub_self]
      rfl

end CString

end Lib
end KnShim
