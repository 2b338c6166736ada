import KnShim.Lib.CString
import Mathlib.Data.List.Infix

/-!
# Search — the first place where a list stands in another

`find needle hay` is what `strstr` and `strchr` compute: the first offset in `hay` from which
`needle` can be read.  `search` is the same in an array of which only a first part is known.  The
functions of C stop at a NUL; where the known part has none, they read on behind it.
-/

namespace KnShim
namespace Lib
namespace Search

variable {α : Type} [DecidableEq α] {needle hay xs ys : List α} {c : α} {i : Nat}

/-- The first place in `hay` where `needle` stands. -/
def find (needle : List α) : List α → Option Nat
  | [] => if needle = [] then some 0 else none
  | x :: hay => if needle <+: x :: hay then some 0 else (find needle hay).map (· + 1)

theorem find_zero (h : needle <+: hay) : find needle hay = some 0 := by
  cases hay with
  | nil => simpa [find] using h
  | cons x hay => simp [find, h]

theorem find_cons_next {x : α} (h : ¬ needle <+: x :: hay) :
    find needle (x :: hay) = (find needle hay).map (· + 1) := by
  simp [find, h]

/-- The needle can be read where it is found. -/
theorem starts_of_find (h : find needle hay = some i) : needle <+: hay.drop i := by
  induction hay generalizing i with
  | nil =>
      by_cases hempty : needle = []
      · simp [hempty]
      · simp [find, hempty] at h
  | cons x hay ih =>
      by_cases hstart : needle <+: x :: hay
      · rw [find_zero hstart] at h
        cases h
        exact hstart
      · rw [find_cons_next hstart] at h
        rcases Option.map_eq_some_iff.mp h with ⟨j, hj, rfl⟩
        exact ih hj

theorem add_length_le_of_find (h : find needle hay = some i) (hne : needle ≠ []) :
    i + needle.length ≤ hay.length := by
  have hlen := (starts_of_find h).length_le
  have hpos : 0 < needle.length := List.length_pos_iff.mpr hne
  rw [List.length_drop] at hlen
  omega

/-- A needle that stands somewhere is found. -/
theorem isSome_find_iff : (find needle hay).isSome ↔ needle <:+: hay := by
  induction hay with
  | nil =>
      by_cases hempty : needle = [] <;> simp [find, hempty]
  | cons x hay ih =>
      by_cases hstart : needle <+: x :: hay
      · simp [find_zero hstart, hstart.isInfix]
      · rw [find_cons_next hstart, Option.isSome_map, ih, List.infix_cons_iff]
        exact (or_iff_right hstart).symm

theorem find_eq_none_iff : find needle hay = none ↔ ¬ needle <:+: hay := by
  rw [← isSome_find_iff, Option.not_isSome_iff_eq_none]

/-- What comes behind does not change where the needle is found first. -/
theorem find_append (h : find needle xs = some i) (ys : List α) :
    find needle (xs ++ ys) = some i := by
  induction xs generalizing i with
  | nil =>
      by_cases hempty : needle = []
      · simp [find, hempty] at h
        subst h
        exact find_zero (by simp [hempty])
      · simp [find, hempty] at h
  | cons x xs ih =>
      by_cases hstart : needle <+: x :: xs
      · rw [find_zero hstart] at h
        cases h
        exact find_zero (hstart.trans (List.prefix_append _ _))
      · rw [find_cons_next hstart] at h
        rcases Option.map_eq_some_iff.mp h with ⟨j, hj, rfl⟩
        -- the needle is too short to reach from here to what comes behind
        have hne : needle ≠ [] := by
          rintro rfl
          exact hstart List.nil_prefix
        have hlen := add_length_le_of_find hj hne
        have hnot : ¬ needle <+: x :: (xs ++ ys) := by
          intro hlong
          refine hstart (List.prefix_of_prefix_length_le hlong ?_ ?_)
          · exact List.prefix_append (x :: xs) ys
          · rw [List.length_cons]
            omega
        rw [List.cons_append, find_cons_next hnot, ih hj]
        rfl

/-- The needle does not stand before the place where it is found. -/
theorem not_inside_take_of_find (h : find needle hay = some i) (hne : needle ≠ []) :
    ¬ needle <:+: hay.take i := by
  intro hinside
  rcases Option.isSome_iff_exists.mp (isSome_find_iff.mpr hinside) with ⟨j, hj⟩
  have hwhole := find_append hj (hay.drop i)
  rw [List.take_append_drop, h] at hwhole
  cases hwhole
  have hlen := add_length_le_of_find hj hne
  have hpos : 0 < needle.length := List.length_pos_iff.mpr hne
  rw [List.length_take] at hlen
  omega

/-- The text around the place where the needle is found. -/
theorem split_of_find (h : find needle hay = some i) :
    hay = hay.take i ++ (needle ++ hay.drop (i + needle.length)) := by
  rcases starts_of_find h with ⟨rest, hrest⟩
  have hdrop : hay.drop (i + needle.length) = rest := by
    rw [← List.drop_drop, ← hrest, List.drop_left]
  rw [hdrop, hrest, List.take_append_drop]

/-- The needle is found where it ends the text. -/
theorem find_take (h : find needle hay = some i) :
    find needle (hay.take (i + needle.length)) = some i := by
  have hinside : needle <:+: hay.take (i + needle.length) := by
    refine ⟨hay.take i, [], ?_⟩
    rcases starts_of_find h with ⟨rest, hrest⟩
    rw [List.take_add, ← hrest, List.take_left, List.append_nil]
  rcases Option.isSome_iff_exists.mp (isSome_find_iff.mpr hinside) with ⟨j, hj⟩
  have hwhole := find_append hj (hay.drop (i + needle.length))
  rw [List.take_append_drop, h] at hwhole
  cases hwhole
  exact hj

/-- Where the first letter of the needle is missing the search goes on. -/
theorem find_append_of_not_mem (h : c ∉ xs) :
    find (c :: needle) (xs ++ ys) = (find (c :: needle) ys).map (· + xs.length) := by
  induction xs with
  | nil => simp
  | cons x xs ih =>
      have hx : c ≠ x := fun heq => h (heq ▸ List.mem_cons_self)
      have hxs : c ∉ xs := fun hmem => h (List.mem_cons_of_mem x hmem)
      have hnot : ¬ c :: needle <+: x :: (xs ++ ys) := fun hp => hx (List.cons_prefix_cons.mp hp).1
      rw [List.cons_append, find_cons_next hnot, ih hxs, Option.map_map]
      congr 1

/-- The first occurrence is where the needle follows on a part without its first letter. -/
theorem find_at (h : c ∉ xs) : find (c :: needle) (xs ++ (c :: needle ++ ys)) = some xs.length := by
  rw [find_append_of_not_mem h, find_zero (List.prefix_append _ _)]
  simp

/-- A needle without the separator does not reach over it. -/
theorem find_append_of_not_inside (ys : List α) (h : ¬ needle <:+: xs) (hc : c ∉ needle) :
    find needle (xs ++ c :: ys) = (find needle (c :: ys)).map (· + xs.length) := by
  induction xs with
  | nil => simp
  | cons x xs ih =>
      have hxs : ¬ needle <:+: xs := fun hinside => h (hinside.trans (List.suffix_cons x xs).isInfix)
      have hnot : ¬ needle <+: x :: (xs ++ c :: ys) := by
        intro hstart
        by_cases hshort : needle.length ≤ (x :: xs).length
        · refine h (List.IsPrefix.isInfix (List.prefix_of_prefix_length_le hstart ?_ hshort))
          exact List.prefix_append (x :: xs) (c :: ys)
        · -- the needle would have the separator in it
          have hlong : x :: xs ++ [c] <+: needle := by
            refine List.prefix_of_prefix_length_le ⟨ys, by simp⟩ hstart ?_
            simp at hshort ⊢
            omega
          exact hc (hlong.subset (by simp))
      rw [List.cons_append, find_cons_next hnot, ih hxs, Option.map_map]
      congr 1

/-! ## Arrays that are known in part -/

/-- `strstr` from the offset `pos` in an array that begins with `known`, for a needle without NUL. -/
def search (needle known : Bytes) (pos : Nat) : Fallible (Option Nat) :=
  match find needle (CString.upToNul (known.drop pos)).bytes with
  | some i => .ok (some (pos + i))
  | none => if (0 : UInt8) ∈ known.drop pos then .ok none else .error .uninitialized

variable {needle known : Bytes} {pos i : Nat}

/-- The string that starts at an offset inside a string. -/
theorem upToNul_drop (h : pos ≤ (CString.upToNul known).length) :
    CString.upToNul (known.drop pos) = (CString.upToNul known).drop pos ∧
      ((0 : UInt8) ∈ known.drop pos ↔ (0 : UInt8) ∈ known) := by
  by_cases hnul : (0 : UInt8) ∈ known
  · rcases CString.starts_upToNul hnul with ⟨rest, hrest⟩
    have hdrop : known.drop pos = ((CString.upToNul known).drop pos).bytes ++ 0 :: rest := by
      conv_lhs => rw [hrest]
      rw [List.drop_append_of_le_length h]
      rfl
    rw [hdrop, CString.upToNul_append_nul]
    exact ⟨rfl, by simp [hnul]⟩
  · have htext : CString.upToNul known = ⟨known, hnul⟩ := CString.upToNul_bytes ⟨known, hnul⟩
    have hmem : (0 : UInt8) ∉ known.drop pos := fun hmem => hnul (List.mem_of_mem_drop hmem)
    rw [htext]
    exact ⟨CString.upToNul_bytes ⟨known.drop pos, hmem⟩, iff_of_false hmem hnul⟩

theorem search_of_find (known : Bytes) (h : pos ≤ (CString.upToNul known).length)
    (hfind : find needle ((CString.upToNul known).bytes.drop pos) = some i) :
    search needle known pos = .ok (some (pos + i)) := by
  simp [search, (upToNul_drop h).1, hfind]

theorem search_of_find_none (needle known : Bytes) (h : pos ≤ (CString.upToNul known).length)
    (hfind : find needle ((CString.upToNul known).bytes.drop pos) = none) :
    search needle known pos =
      if (0 : UInt8) ∈ known then .ok none else .error .uninitialized := by
  simp [search, (upToNul_drop h).1, (upToNul_drop h).2, hfind]

/-- A search that succeeds has read what it found. -/
theorem find_of_search (h : pos ≤ (CString.upToNul known).length)
    (hsearch : search needle known pos = .ok (some i)) :
    pos ≤ i ∧ find needle ((CString.upToNul known).bytes.drop pos) = some (i - pos) := by
  cases hfind : find needle ((CString.upToNul known).bytes.drop pos) with
  | none =>
      rw [search_of_find_none needle known h hfind] at hsearch
      split_ifs at hsearch
      cases hsearch
  | some j =>
      rw [search_of_find known h hfind] at hsearch
      cases hsearch
      exact ⟨Nat.le_add_right pos j, by rw [Nat.add_sub_cancel_left]⟩

theorem add_length_le_of_search (h : pos ≤ (CString.upToNul known).length) (hne : needle ≠ [])
    (hsearch : search needle known pos = .ok (some i)) :
    i + needle.length ≤ (CString.upToNul known).length := by
  rcases find_of_search h hsearch with ⟨hle, hfind⟩
  have hlength := add_length_le_of_find hfind hne
  rw [List.length_drop] at hlength
  rw [CString.length] at h ⊢
  omega

/-- A NUL behind the known part ends the same string. -/
theorem upToNul_append_zero (known : Bytes) :
    CString.upToNul (known ++ [0]) = CString.upToNul known := by
  by_cases hnul : (0 : UInt8) ∈ known
  · rcases CString.starts_upToNul hnul with ⟨rest, hrest⟩
    conv_lhs => rw [hrest, List.append_assoc, List.cons_append]
    exact CString.upToNul_append_nul _ _
  · have hknown : CString.upToNul known = ⟨known, hnul⟩ := CString.upToNul_bytes ⟨known, hnul⟩
    rw [hknown]
    exact CString.upToNul_append_nul ⟨known, hnul⟩ []

/-- A search that returns does not see a NUL that is put behind the known part. -/
theorem search_append_zero {r : Option Nat} (h : pos ≤ (CString.upToNul known).length)
    (hsearch : search needle known pos = .ok r) : search needle (known ++ [0]) pos = .ok r := by
  have htext := upToNul_append_zero known
  cases hfind : find needle ((CString.upToNul known).bytes.drop pos) with
  | some j =>
      rw [search_of_find known h hfind] at hsearch
      rw [← htext] at h hfind
      rw [search_of_find _ h hfind, hsearch]
  | none =>
      rw [search_of_find_none needle known h hfind] at hsearch
      split_ifs at hsearch
      rw [← htext] at h hfind
      rw [search_of_find_none _ _ h hfind, if_pos (by simp), hsearch]

end Search

end Lib
end KnShim
