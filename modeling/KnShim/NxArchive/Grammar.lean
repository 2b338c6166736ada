import KnShim.NxArchive.Extract

/-!
# Grammar — which archives are extracted

An archive is a sequence of records and an end mark.  `CommandDone` says everything that one command
of `NXExtractArchive` can do, and `command_record`, `command_cutOff` and `command_finish` what it
does in front of a record and of the end mark.  `extract_null_iff` concludes for whole archives:
extraction returns `NULL` exactly on complete archives whose paths fit, and then its effects are
those of the records.
-/

namespace KnShim
namespace NxArchive

open Lib

/-! ## The grammar -/

/-- A name as it stands in an archive: its last byte is a NUL. -/
structure Name where
  bytes : Bytes
  nul_last : ∃ front, bytes = front ++ [0]
  fits : bytes.length < 2 ^ 32

/-- The bytes of a file. -/
structure Content where
  bytes : Bytes
  fits : bytes.length < 2 ^ 32

/-- The records of an archive. -/
inductive Record where
  | start
  | file (name : Name) (content : Content)
  | directory (name : Name)

namespace Name

/-- The name up to its first NUL. -/
def text (name : Name) : CString := CString.upToNul name.bytes

def encode (name : Name) : Bytes := toLE 4 name.bytes.length ++ name.bytes

/-- `location`, a slash, and the name. -/
def path (location : CString) (name : Name) : CString :=
  (location.append slash).append name.text

/-- The path fits into `tmp_path`. -/
def FitsIn (location : CString) (name : Name) : Prop :=
  location.length + 1 + name.text.length + 1 ≤ pathMax

theorem mem_bytes (name : Name) : (0 : UInt8) ∈ name.bytes := by
  rcases name.nul_last with ⟨front, hfront⟩
  simp [hfront]

theorem length_pos (name : Name) : 0 < name.bytes.length :=
  List.length_pos_of_mem name.mem_bytes

end Name

namespace Record

def encode : Record → Bytes
  | .start => toLE 4 100 ++ toLE 4 0x584e0001
  | .file name content =>
      toLE 4 200 ++ (name.encode ++ (toLE 4 content.bytes.length ++ content.bytes))
  | .directory name => toLE 4 201 ++ name.encode

def FitsIn (location : CString) : Record → Prop
  | .start => True
  | .file name _ => name.FitsIn location
  | .directory name => name.FitsIn location

/-- What extracting the record does. -/
def effect (location : CString) : Record → Option Effect
  | .start => none
  | .file name content => some (.writeFile (name.path location) content.bytes)
  | .directory name => some (.makeDirectory (name.path location))

end Record

/-! ## The readers -/

namespace Extractor

/-- The extractor is in front of `rest`, in an object of legal size. -/
structure At (target : Target) (nx : Extractor) (rest : Bytes) : Prop where
  rest_eq : nx.base.drop nx.pos = rest
  pos_le : nx.pos ≤ nx.base.length
  size_le : nx.base.length ≤ target.ptrdiffMax

def skip (self : Extractor) (n : Nat) : Extractor := { self with pos := self.pos + n }

variable {target : Target} {self : Extractor} {rest tail bytes : Bytes}

theorem At.length_rest (h : self.At target rest) : self.pos + rest.length = self.base.length := by
  rw [← h.rest_eq, List.length_drop]
  exact Nat.add_sub_cancel' h.pos_le

/-- Positions and sums of two sizes do not wrap. -/
theorem At.lt_wrap (h : self.At target rest) {n : Nat} (hn : n ≤ rest.length) :
    self.pos + n < 2 ^ target.wordBits := by
  have hsize := h.size_le
  have hlen := h.length_rest
  -- an object is at most half of the address space
  have hhalf : 2 ^ (target.wordBits - 1) ≤ 2 ^ target.wordBits :=
    Nat.pow_le_pow_right (by decide) (Nat.sub_le _ _)
  have hpos := Nat.two_pow_pos (target.wordBits - 1)
  simp only [Target.ptrdiffMax] at hsize
  omega

theorem At.skip (h : self.At target (bytes ++ tail)) :
    (self.skip bytes.length).At target tail where
  rest_eq := by
    change self.base.drop (self.pos + bytes.length) = tail
    rw [← List.drop_drop, h.rest_eq, List.drop_left]
  pos_le := by
    have hlen := h.length_rest
    rw [List.length_append] at hlen
    change self.pos + bytes.length ≤ self.base.length
    omega
  size_le := h.size_le

theorem At.readSlice (h : self.At target (bytes ++ tail)) :
    readSlice self.base self.pos bytes.length = .ok bytes := by
  have hlen := h.length_rest
  rw [List.length_append] at hlen
  rw [readSlice_of_le (by omega), h.rest_eq, List.take_left]

theorem At.remaining (h : self.At target rest) : self.remaining target = rest.length := by
  have hlen := h.length_rest
  have hwrap := h.lt_wrap (Nat.le_refl _)
  rw [Extractor.remaining, ← hlen]
  -- the subtraction is taken modulo the word, and gives the true difference
  have hsum : self.pos + rest.length + 2 ^ target.wordBits - self.pos =
      rest.length + 2 ^ target.wordBits := by omega
  rw [hsum, Nat.add_mod_right, Nat.mod_eq_of_lt (by omega)]

end Extractor

open Extractor

variable {target : Target} {self self' : Extractor} {rest tail bytes : Bytes}

theorem readIntoBuf_append (h : self.At target (bytes ++ tail)) :
    readIntoBuf target self bytes.length = .ok (some bytes, self.skip bytes.length) := by
  have hlen := h.length_rest
  have hwrap : self.pos + bytes.length < 2 ^ target.wordBits :=
    h.lt_wrap (by rw [List.length_append]; exact Nat.le_add_right _ _)
  rw [List.length_append] at hlen
  rw [readIntoBuf, Nat.mod_eq_of_lt hwrap, if_neg (by omega), h.readSlice]
  rfl

theorem readIntoBuf_short (h : self.At target rest) {size : Nat} (hsize : rest.length < size)
    (hsmall : size ≤ 4) : readIntoBuf target self size = .ok (none, self) := by
  have hlen := h.length_rest
  have hmax := h.size_le
  have hhalf : 2 ^ (target.wordBits - 1) + 2 ^ (target.wordBits - 1) = 2 ^ target.wordBits := by
    cases target <;> rfl
  -- on both targets there is room for four more bytes above any object
  have hpow : 2 ^ 31 ≤ 2 ^ (target.wordBits - 1) := by
    cases target <;> decide
  simp only [Target.ptrdiffMax] at hmax
  have hwrap : self.pos + size < 2 ^ target.wordBits := by omega
  rw [readIntoBuf, Nat.mod_eq_of_lt hwrap, if_pos (by omega)]

/-- An integer that is there is read. -/
theorem readInt_toLE {n : Nat} (h : self.At target (toLE 4 n ++ tail)) (hn : n < 2 ^ 32) :
    readInt target self = .ok (n, self.skip 4) ∧ (self.skip 4).At target tail := by
  have hread := readIntoBuf_append h
  have hskip := h.skip
  rw [toLE_length] at hread hskip
  refine ⟨?_, hskip⟩
  rw [readInt, hread, Fallible.ok_bind]
  exact congrArg (fun n => Except.ok (n, self.skip 4)) (ofLE_toLE_of_lt hn)

/-- An integer that is not there is read as 0. -/
theorem readInt_short (h : self.At target rest) (hshort : rest.length < 4) :
    readInt target self = .ok (0, self) := by
  rw [readInt, readIntoBuf_short h hshort (Nat.le_refl 4)]
  rfl

/-- Four bytes are an integer. -/
theorem exists_toLE (hlen : 4 ≤ rest.length) :
    ∃ n tail, n < 2 ^ 32 ∧ rest = toLE 4 n ++ tail := by
  have htake : (rest.take 4).length = 4 := by
    rw [List.length_take]
    exact min_eq_left hlen
  refine ⟨ofLE (rest.take 4), rest.drop 4, ?_, ?_⟩
  · have hlt := ofLE_lt (rest.take 4)
    rwa [htake] at hlt
  -- any four bytes are the encoding of the number they decode to
  · have hback := toLE_ofLE (rest.take 4)
    rw [htake] at hback
    rw [hback, List.take_append_drop]

/-- What `NXReadInt` does. -/
theorem readInt_done (h : self.At target rest) :
    (∃ n tail, n < 2 ^ 32 ∧ rest = toLE 4 n ++ tail ∧ readInt target self = .ok (n, self.skip 4) ∧
      (self.skip 4).At target tail) ∨
    rest.length < 4 ∧ readInt target self = .ok (0, self) := by
  by_cases hlen : rest.length < 4
  · exact Or.inr ⟨hlen, readInt_short h hlen⟩
  · rcases exists_toLE (Nat.le_of_not_lt hlen) with ⟨n, tail, hn, rfl⟩
    exact Or.inl ⟨n, tail, hn, rfl, readInt_toLE h hn⟩

theorem getPointer_append (h : self.At target (bytes ++ tail)) :
    getPointer target self bytes.length = (some self.pos, self.skip bytes.length) := by
  have hle : bytes.length ≤ (bytes ++ tail).length := by
    rw [List.length_append]
    exact Nat.le_add_right _ _
  rw [getPointer, h.remaining, if_neg (Nat.not_lt.mpr hle), Nat.mod_eq_of_lt (h.lt_wrap hle)]
  rfl

theorem getPointer_short (h : self.At target rest) {size : Nat} (hsize : rest.length < size) :
    getPointer target self size = (none, self) := by
  rw [getPointer, h.remaining, if_pos hsize]

theorem getStringPointer_name (name : Name) (h : self.At target (name.bytes ++ tail)) :
    getStringPointer target self name.bytes.length =
      .ok (some self.pos, self.skip name.bytes.length) := by
  have hle : name.bytes.length ≤ (name.bytes ++ tail).length := by
    rw [List.length_append]
    exact Nat.le_add_right _ _
  have hwrap := h.lt_wrap hle
  have hpos := name.length_pos
  -- the last byte of a name is its NUL
  have hlast : readAt self.base ((self.pos + name.bytes.length + (2 ^ target.wordBits - 1)) %
      2 ^ target.wordBits) = .ok 0 := by
    have hindex : self.pos + name.bytes.length + (2 ^ target.wordBits - 1) =
        self.pos + (name.bytes.length - 1) + 2 ^ target.wordBits := by omega
    rw [hindex, Nat.add_mod_right, Nat.mod_eq_of_lt (by omega), readAt_eq_ok,
      ← List.getElem?_drop, h.rest_eq, List.getElem?_append_left (by omega)]
    rcases name.nul_last with ⟨front, hfront⟩
    simp [hfront]
  rw [getStringPointer, h.remaining, if_neg (Nat.not_lt.mpr hle), hlast, Fallible.ok_bind,
    if_neg (by simp), Nat.mod_eq_of_lt hwrap]
  rfl

/-- What `NXGetStringPointer` does for a size that is not 0: it finds a name or returns `NULL`. -/
theorem getStringPointer_done (h : self.At target rest) {size : Nat} (hpos : 0 < size)
    (hsize : size < 2 ^ 32) :
    (∃ (name : Name) (tail : Bytes), name.bytes.length = size ∧ rest = name.bytes ++ tail) ∨
      getStringPointer target self size = .ok (none, self) := by
  -- too few bytes, or enough of them and the last one decides
  by_cases hlen : rest.length < size
  · right
    rw [getStringPointer, h.remaining, if_pos hlen]
  · have hle : size ≤ rest.length := Nat.le_of_not_lt hlen
    have hwrap := h.lt_wrap hle
    have hin : size - 1 < rest.length := by omega
    -- the byte that is looked at lies inside what is left
    have hread : readAt self.base ((self.pos + size + (2 ^ target.wordBits - 1)) %
        2 ^ target.wordBits) = .ok rest[size - 1] := by
      have hindex : self.pos + size + (2 ^ target.wordBits - 1) =
          self.pos + (size - 1) + 2 ^ target.wordBits := by omega
      rw [hindex, Nat.add_mod_right, Nat.mod_eq_of_lt (by omega), readAt_eq_ok,
        ← List.getElem?_drop, h.rest_eq, List.getElem?_eq_getElem hin]
    by_cases hlast : rest[size - 1] = 0
    · left
      refine ⟨⟨rest.take size, ⟨rest.take (size - 1), ?_⟩, ?_⟩, rest.drop size, ?_, ?_⟩
      · have hsucc : size = size - 1 + 1 := (Nat.sub_add_cancel hpos).symm
        rw [← hlast, ← List.take_succ_eq_append_getElem hin, ← hsucc]
      · rw [List.length_take]
        exact lt_of_le_of_lt (Nat.min_le_left _ _) hsize
      · rw [List.length_take]
        exact min_eq_left hle
      · exact (List.take_append_drop size rest).symm
    · right
      rw [getStringPointer, h.remaining, if_neg hlen, hread, Fallible.ok_bind, if_pos hlast]
      rfl

/-- Even a size of 0 is looked up inside the buffer. -/
theorem getStringPointer_zero (h : self.At target rest) (hpos : 0 < self.pos) :
    ∃ r, getStringPointer target self 0 = .ok r := by
  have hwrap := h.lt_wrap (Nat.zero_le _)
  have hle := h.pos_le
  have hin : self.pos - 1 < self.base.length := by omega
  -- for size 0 it is the byte before the position, which has been read already
  have hindex : (self.pos + 0 + (2 ^ target.wordBits - 1)) % 2 ^ target.wordBits =
      self.pos - 1 := by
    have hsum : self.pos + 0 + (2 ^ target.wordBits - 1) = self.pos - 1 + 2 ^ target.wordBits := by
      omega
    rw [hsum, Nat.add_mod_right, Nat.mod_eq_of_lt (by omega)]
  rw [getStringPointer, if_neg (Nat.not_lt_zero _), hindex, readAt_of_lt hin, Fallible.ok_bind]
  split_ifs
  · exact ⟨_, rfl⟩
  · exact ⟨_, rfl⟩

/-! ## The path -/

section Strcat

variable {s t : CString} {dest : Bytes}

theorem nul_mem_take (hs : s.Starts dest) (hlen : dest.length = pathMax) :
    (0 : UInt8) ∈ dest.take pathMax := by
  rw [← hlen, List.take_length]
  rcases hs with ⟨rest, rfl⟩
  simp

theorem strcatS_fits (hs : s.Starts dest) (hlen : dest.length = pathMax)
    (hroom : s.length + t.length + 1 ≤ pathMax) :
    ∃ dest', strcatS dest pathMax t = .ok (dest', false) ∧ (s.append t).Starts dest' ∧
      dest'.length = pathMax := by
  rcases CString.store_append hs (by rw [hlen]; exact hroom) with ⟨dest', hstore, hstarts, hlen'⟩
  refine ⟨dest', ?_, hstarts, hlen'.trans hlen⟩
  rw [strcatS, if_neg (by decide), if_neg (not_not_intro (nul_mem_take hs hlen)),
    CString.read_of_starts hs, Fallible.ok_bind, if_neg (Nat.not_lt.mpr hroom), hstore]
  rfl

theorem strcatS_long (hs : s.Starts dest) (hlen : dest.length = pathMax)
    (hlong : ¬ s.length + t.length + 1 ≤ pathMax) :
    strcatS dest pathMax t = .ok (dest, true) := by
  rw [strcatS, if_neg (by decide), if_neg (not_not_intro (nul_mem_take hs hlen)),
    CString.read_of_starts hs, Fallible.ok_bind, if_pos (Nat.lt_of_not_le hlong)]
  rfl

end Strcat

/-- At the head of the loop `tmp_path` holds the location and a slash. -/
structure Ready (location : CString) (tmpPath : Bytes) : Prop where
  starts : (location.append slash).Starts tmpPath
  length_eq : tmpPath.length = pathMax

variable {location : CString} {tmpPath : Bytes}

theorem Name.fitsIn_iff {name : Name} :
    name.FitsIn location ↔
      (location.append slash).length + name.text.length + 1 ≤ pathMax := by
  rw [CString.append_length]
  rfl

/-- Writing the NUL behind the slash restores the path. -/
theorem Ready.restore {name : Name} (hstarts : (name.path location).Starts tmpPath)
    (hlen : tmpPath.length = pathMax) :
    ∃ tmpPath', writeAt tmpPath (location.length + 1) 0 = .ok tmpPath' ∧
      Ready location tmpPath' := by
  have hslash : (location.append slash).length = location.length + 1 := CString.append_length _ _
  -- the place behind the slash is inside the path, or on its NUL
  have hlt : location.length + 1 < tmpPath.length := by
    rcases hstarts with ⟨rest, rfl⟩
    simp only [Name.path, CString.append_bytes, List.length_append, List.length_cons]
    simp only [CString.length, slash, List.length_cons, List.length_nil]
    omega
  refine ⟨tmpPath.set (location.length + 1) 0, writeAt_of_lt 0 hlt, ?_, ?_⟩
  · rw [← hslash]
    exact CString.starts_set_nul hstarts
  · rw [List.length_set, hlen]

theorem Name.starts_text (name : Name) (tail : Bytes) :
    name.text.Starts (name.bytes ++ tail) := by
  rcases CString.starts_upToNul name.mem_bytes with ⟨rest, hrest⟩
  refine ⟨rest ++ tail, ?_⟩
  calc
    name.bytes ++ tail = (name.text.bytes ++ 0 :: rest) ++ tail := congrArg (· ++ tail) hrest
    _ = name.text.bytes ++ 0 :: (rest ++ tail) := by rw [List.append_assoc, List.cons_append]

/-- A name that is there and fits is appended. -/
theorem appendName_name {name : Name} (h : self.At target (name.encode ++ tail))
    (hready : Ready location tmpPath) (hfits : name.FitsIn location) (unreadable tooLong : String) :
    ∃ self' tmpPath', appendName target self tmpPath unreadable tooLong =
        .ok (.ok (self', tmpPath')) ∧ self'.At target tail ∧ self'.base = self.base ∧
      (name.path location).Starts tmpPath' ∧ tmpPath'.length = pathMax := by
  rw [Name.encode, List.append_assoc] at h
  rcases readInt_toLE h name.fits with ⟨hread, h₁⟩
  rcases strcatS_fits hready.starts hready.length_eq (Name.fitsIn_iff.mp hfits) with
    ⟨tmpPath', hcat, hstarts, hlen⟩
  -- `strcat_s` reads the name up to its first NUL
  have htext : CString.read (self.base.drop (self.skip 4).pos) = .ok name.text := by
    refine CString.read_of_starts ?_
    have hrest : self.base.drop (self.skip 4).pos = name.bytes ++ tail := h₁.rest_eq
    rw [hrest]
    exact name.starts_text tail
  refine ⟨(self.skip 4).skip name.bytes.length, tmpPath', ?_, h₁.skip, rfl, hstarts, hlen⟩
  rw [appendName, hread, Fallible.ok_bind]
  have hsize : name.bytes.length ≠ 0 := Nat.ne_of_gt name.length_pos
  simp only [getStringPointer_name name h₁, Fallible.ok_bind, hsize, if_false]
  change (CString.read (self.base.drop (self.skip 4).pos) >>= fun text => _) = _
  rw [htext, Fallible.ok_bind, hcat]
  rfl

/-- What the start of the commands 200 and 201 does. -/
theorem appendName_done (h : self.At target rest) (hready : Ready location tmpPath)
    (hpos : 0 < self.pos) (unreadable tooLong : String) :
    (∃ (name : Name) (tail : Bytes), name.FitsIn location ∧ rest = name.encode ++ tail) ∨
      ∃ error, appendName target self tmpPath unreadable tooLong = .ok (.error error) := by
  -- a size of 0, read or for want of bytes, is refused whatever the lookup says
  have hzero : ∀ self' : Extractor, readInt target self = .ok (0, self') → 0 < self'.pos →
      (∃ r, self'.At target r) →
      ∃ error, appendName target self tmpPath unreadable tooLong = .ok (.error error) := by
    rintro self' hread hpos' ⟨r, hr⟩
    rcases getStringPointer_zero hr hpos' with ⟨⟨name, self''⟩, hname⟩
    refine ⟨unreadable, ?_⟩
    rw [appendName, hread, Fallible.ok_bind]
    simp only [hname, Fallible.ok_bind]
    cases name <;> rfl
  -- the size is there, or there is nothing to read it from
  rcases readInt_done h with ⟨n, tail, hn, rfl, hread, h₁⟩ | ⟨_, hread⟩
  · by_cases hn0 : n = 0
    · subst hn0
      exact Or.inr (hzero _ hread (Nat.lt_of_lt_of_le hpos (Nat.le_add_right _ _)) ⟨_, h₁⟩)
    · rcases getStringPointer_done h₁ (Nat.pos_of_ne_zero hn0) hn with
        ⟨name, tail', rfl, rfl⟩ | hnull
      · by_cases hfits : name.FitsIn location
        · exact Or.inl ⟨name, tail', hfits, (List.append_assoc _ _ _).symm⟩
        · -- the name is read, but the path would be too long
          right
          have htext : CString.read (self.base.drop (self.skip 4).pos) = .ok name.text := by
            refine CString.read_of_starts ?_
            have hrest : self.base.drop (self.skip 4).pos = name.bytes ++ tail' := h₁.rest_eq
            rw [hrest]
            exact name.starts_text tail'
          refine ⟨tooLong, ?_⟩
          rw [appendName, hread, Fallible.ok_bind]
          simp only [getStringPointer_name name h₁, Fallible.ok_bind, hn0, if_false]
          change (CString.read (self.base.drop (self.skip 4).pos) >>= fun text => _) = _
          rw [htext, Fallible.ok_bind, strcatS_long hready.starts hready.length_eq
            (fun h => hfits (Name.fitsIn_iff.mpr h))]
          rfl
      · right
        refine ⟨unreadable, ?_⟩
        rw [appendName, hread, Fallible.ok_bind]
        simp only [hnull, Fallible.ok_bind]
        rfl
  · exact Or.inr (hzero _ hread hpos ⟨_, h⟩)

/-! ## One command -/

/-- A file command whose name fits and whose size leads to `bytes`. -/
theorem command_file {name : Name} {rest : Bytes}
    (h : self.At target (toLE 4 200 ++ (name.encode ++ rest)))
    (hready : Ready location tmpPath) (hfits : name.FitsIn location)
    (hsize : ∀ self₁ : Extractor, self₁.At target rest →
      ∃ self₂, readInt target self₁ = .ok (bytes.length, self₂) ∧
        self₂.At target (bytes ++ tail) ∧ self₂.base = self₁.base) :
    ∃ self' tmpPath', command target location.length self tmpPath =
        .ok (.next self' tmpPath' (some (.writeFile (name.path location) bytes))) ∧
      self'.At target tail ∧ self'.base = self.base ∧ Ready location tmpPath' := by
  rcases readInt_toLE h (by decide) with ⟨hcmd, h₁⟩
  rcases appendName_name h₁ hready hfits "can't read file name string"
    "can't strcat_s file name string" with ⟨self₂, tmpPath₂, hname, h₂, hbase₂, hstarts, hlen⟩
  rcases hsize self₂ h₂ with ⟨self₃, hread, h₃, hbase₃⟩
  rcases Ready.restore hstarts hlen with ⟨tmpPath₄, hwrite, hready₄⟩
  -- the name, the size, the data, and the NUL that cuts the name off again
  refine ⟨self₃.skip bytes.length, tmpPath₄, ?_, h₃.skip, hbase₃.trans hbase₂, hready₄⟩
  rw [command, hcmd, Fallible.ok_bind]
  simp only [Nat.reduceEqDiff, if_false, if_true, hname, Fallible.ok_bind, hread,
    getPointer_append h₃, CString.read_of_starts hstarts]
  change (readSlice self₃.base self₃.pos bytes.length >>= fun data => _) = _
  rw [h₃.readSlice, Fallible.ok_bind, hwrite]
  rfl

/-- In front of a record that fits, a command does what the record says. -/
theorem command_record {r : Record} (h : self.At target (r.encode ++ tail))
    (hready : Ready location tmpPath) (hfits : r.FitsIn location) :
    ∃ self' tmpPath', command target location.length self tmpPath =
        .ok (.next self' tmpPath' (r.effect location)) ∧
      self'.At target tail ∧ self'.base = self.base ∧ Ready location tmpPath' := by
  -- one case for each kind of record
  cases r with
  | start =>
      rw [Record.encode, List.append_assoc] at h
      rcases readInt_toLE h (by decide) with ⟨hcmd, h₁⟩
      rcases readInt_toLE h₁ (by decide) with ⟨hformat, h₂⟩
      refine ⟨(self.skip 4).skip 4, tmpPath, ?_, h₂, rfl, hready⟩
      rw [command, hcmd, Fallible.ok_bind]
      simp only [if_true, hformat, Fallible.ok_bind]
      rfl
  | file name content =>
      simp only [Record.encode, List.append_assoc] at h
      refine command_file h hready hfits (fun self₁ h₁ => ?_)
      rcases readInt_toLE h₁ content.fits with ⟨hread, h₂⟩
      exact ⟨self₁.skip 4, hread, h₂, rfl⟩
  | directory name =>
      rw [Record.encode, List.append_assoc] at h
      rcases readInt_toLE h (by decide) with ⟨hcmd, h₁⟩
      rcases appendName_name h₁ hready hfits "can't read dir name string"
        "can't strcat_s dir name string" with ⟨self₂, tmpPath₂, hname, h₂, hbase, hstarts, hlen⟩
      rcases Ready.restore hstarts hlen with ⟨tmpPath₃, hwrite, hready₃⟩
      refine ⟨self₂, tmpPath₃, ?_, h₂, hbase, hready₃⟩
      rw [command, hcmd, Fallible.ok_bind]
      simp only [Nat.reduceEqDiff, if_false, if_true, hname, Fallible.ok_bind,
        CString.read_of_starts hstarts, hwrite]
      rfl

/-- A file record that is cut off inside its size is written as an empty file: the size is read
as 0. -/
theorem command_cutOff {name : Name}
    (h : self.At target (toLE 4 200 ++ (name.encode ++ tail))) (hshort : tail.length < 4)
    (hready : Ready location tmpPath) (hfits : name.FitsIn location) :
    ∃ self' tmpPath', command target location.length self tmpPath =
        .ok (.next self' tmpPath' (some (.writeFile (name.path location) []))) ∧
      self'.At target tail ∧ self'.base = self.base ∧ Ready location tmpPath' :=
  command_file h hready hfits (fun self₁ h₁ => ⟨self₁, readInt_short h₁ hshort, h₁, rfl⟩)

theorem command_finish (h : self.At target (toLE 4 300 ++ tail)) (locationSize : Nat)
    (tmpPath : Bytes) : command target locationSize self tmpPath = .ok (.finished none) := by
  rw [command, (readInt_toLE h (by decide)).1, Fallible.ok_bind]
  simp only [Nat.reduceEqDiff, if_false, if_true]
  rfl

/-- Without another integer there is no command. -/
theorem command_short (h : self.At target rest) (hshort : rest.length < 4) (locationSize : Nat)
    (tmpPath : Bytes) : command target locationSize self tmpPath =
      .ok (.finished (some "invalid nxarchive command")) := by
  rw [command, readInt_short h hshort, Fallible.ok_bind]
  rfl

/-- Everything that a command does. -/
inductive CommandDone (target : Target) (location : CString) (base : Bytes) (rest : Bytes) :
    Flow → Prop
  | record (r : Record) (tail : Bytes) (fits : r.FitsIn location) (rest_eq : rest = r.encode ++ tail)
      (self' : Extractor) (tmpPath' : Bytes) (there : self'.At target tail)
      (base_eq : self'.base = base) (ready : Ready location tmpPath') :
      CommandDone target location base rest (.next self' tmpPath' (r.effect location))
  | cutOff (name : Name) (tail : Bytes) (fits : name.FitsIn location)
      (rest_eq : rest = toLE 4 200 ++ (name.encode ++ tail)) (short : tail.length < 4)
      (self' : Extractor) (tmpPath' : Bytes) (there : self'.At target tail)
      (base_eq : self'.base = base) (ready : Ready location tmpPath') :
      CommandDone target location base rest
        (.next self' tmpPath' (some (.writeFile (name.path location) [])))
  | finish (tail : Bytes) (rest_eq : rest = toLE 4 300 ++ tail) :
      CommandDone target location base rest (.finished none)
  | failed (error : String) : CommandDone target location base rest (.finished (some error))

/-- In front of a record the command is settled by `command_record`. -/
theorem command_done_record {r : Record} {tail : Bytes} (h : self.At target (r.encode ++ tail))
    (hready : Ready location tmpPath) (hfits : r.FitsIn location) :
    ∃ flow, command target location.length self tmpPath = .ok flow ∧
      CommandDone target location self.base (r.encode ++ tail) flow := by
  rcases command_record h hready hfits with ⟨self', tmpPath', hrun, hat, hbase, hready'⟩
  exact ⟨_, hrun, .record r tail hfits rfl self' tmpPath' hat hbase hready'⟩

theorem command_done_start {tail : Bytes} (h : self.At target (toLE 4 100 ++ tail))
    (hready : Ready location tmpPath) :
    ∃ flow, command target location.length self tmpPath = .ok flow ∧
      CommandDone target location self.base (toLE 4 100 ++ tail) flow := by
  rcases readInt_toLE h (by decide) with ⟨hcmd, h₁⟩
  rcases readInt_done h₁ with ⟨m, tail', _, rfl, hformat, h₂⟩ | ⟨_, hformat⟩
  · by_cases hmagic : m = 0x584e0001
    · subst hmagic
      have hsplit : toLE 4 100 ++ (toLE 4 0x584e0001 ++ tail') = Record.encode .start ++ tail' :=
        (List.append_assoc _ _ _).symm
      rw [hsplit] at h ⊢
      exact command_done_record h hready trivial
    · refine ⟨_, ?_, .failed "invalid archive format"⟩
      rw [command, hcmd, Fallible.ok_bind]
      simp only [if_true, hformat, Fallible.ok_bind, ne_eq, hmagic, not_false_eq_true]
      rfl
  · refine ⟨_, ?_, .failed "invalid archive format"⟩
    rw [command, hcmd, Fallible.ok_bind]
    simp only [if_true, hformat, Fallible.ok_bind]
    rfl

/-- A file command: the name may be missing, and so may the size or the data. -/
theorem command_done_file {tail : Bytes} (h : self.At target (toLE 4 200 ++ tail))
    (hready : Ready location tmpPath) :
    ∃ flow, command target location.length self tmpPath = .ok flow ∧
      CommandDone target location self.base (toLE 4 200 ++ tail) flow := by
  rcases readInt_toLE h (by decide) with ⟨hcmd, h₁⟩
  rcases appendName_done h₁ hready (Nat.succ_pos _) "can't read file name string"
    "can't strcat_s file name string" with ⟨name, tail', hfits, rfl⟩ | ⟨error, hname⟩
  · by_cases hshort : tail'.length < 4
    · rcases command_cutOff h hshort hready hfits with
        ⟨self', tmpPath', hrun, hat, hbase, hready'⟩
      exact ⟨_, hrun, .cutOff name tail' hfits rfl hshort self' tmpPath' hat hbase hready'⟩
    · rcases exists_toLE (Nat.le_of_not_lt hshort) with ⟨size, tail'', hsize, rfl⟩
      by_cases hdata : tail''.length < size
      · -- the file is longer than what is left
        refine ⟨_, ?_, .failed "can't read file buffer"⟩
        rcases appendName_name h₁ hready hfits "can't read file name string"
          "can't strcat_s file name string" with ⟨self₂, tmpPath₂, hname, h₂, _, _, _⟩
        rcases readInt_toLE h₂ hsize with ⟨hread, h₃⟩
        rw [command, hcmd, Fallible.ok_bind]
        simp only [Nat.reduceEqDiff, if_false, if_true, hname, Fallible.ok_bind, hread,
          getPointer_short h₃ hdata]
        rfl
      · have hle : size ≤ tail''.length := Nat.le_of_not_lt hdata
        -- the size leads to that many bytes, so this is a file record
        have htake : (tail''.take size).length = size := by
          rw [List.length_take]
          exact min_eq_left hle
        let r : Record := .file name ⟨tail''.take size, by rwa [htake]⟩
        have hsplit : toLE 4 200 ++ (name.encode ++ (toLE 4 size ++ tail'')) =
            r.encode ++ tail''.drop size := by
          simp only [r, Record.encode, List.append_assoc, htake, List.take_append_drop]
        rw [hsplit] at h ⊢
        exact command_done_record h hready hfits
  · refine ⟨_, ?_, .failed error⟩
    rw [command, hcmd, Fallible.ok_bind]
    simp only [Nat.reduceEqDiff, if_false, if_true, hname, Fallible.ok_bind]
    rfl

theorem command_done_directory {tail : Bytes} (h : self.At target (toLE 4 201 ++ tail))
    (hready : Ready location tmpPath) :
    ∃ flow, command target location.length self tmpPath = .ok flow ∧
      CommandDone target location self.base (toLE 4 201 ++ tail) flow := by
  rcases readInt_toLE h (by decide) with ⟨hcmd, h₁⟩
  rcases appendName_done h₁ hready (Nat.succ_pos _) "can't read dir name string"
    "can't strcat_s dir name string" with ⟨name, tail', hfits, rfl⟩ | ⟨error, hname⟩
  · have hsplit : toLE 4 201 ++ (name.encode ++ tail') = (Record.directory name).encode ++ tail' :=
      (List.append_assoc _ _ _).symm
    rw [hsplit] at h ⊢
    exact command_done_record h hready hfits
  · refine ⟨_, ?_, .failed error⟩
    rw [command, hcmd, Fallible.ok_bind]
    simp only [Nat.reduceEqDiff, if_false, if_true, hname, Fallible.ok_bind]
    rfl

/-- Every command is settled, by what stands behind its word. -/
theorem command_done (h : self.At target rest) (hready : Ready location tmpPath) :
    ∃ flow, command target location.length self tmpPath = .ok flow ∧
      CommandDone target location self.base rest flow := by
  rcases readInt_done h with ⟨n, tail, hn, rfl, hcmd, h₁⟩ | ⟨hshort, _⟩
  · by_cases h100 : n = 100
    · subst h100
      exact command_done_start h hready
    by_cases h200 : n = 200
    · subst h200
      exact command_done_file h hready
    by_cases h201 : n = 201
    · subst h201
      exact command_done_directory h hready
    by_cases h300 : n = 300
    · subst h300
      exact ⟨_, command_finish h _ _, .finish tail rfl⟩
    · refine ⟨_, ?_, .failed "invalid nxarchive command"⟩
      rw [command, hcmd, Fallible.ok_bind]
      simp only [h100, h200, h201, h300, if_false]
      rfl
  · exact ⟨_, command_short h hshort _ _, .failed _⟩

/-! ## The loop -/

theorem Record.encode_length (r : Record) : 8 ≤ r.encode.length := by
  cases r <;> simp only [Record.encode, Name.encode, List.length_append, toLE_length] <;> omega

theorem CommandDone.shorter {base : Bytes} {tmpPath' : Bytes} {effect : Option Effect}
    (h : CommandDone target location base rest (.next self' tmpPath' effect)) :
    ∃ tail, self'.At target tail ∧ self'.base = base ∧ Ready location tmpPath' ∧
      tail.length + 8 ≤ rest.length := by
  cases h with
  -- a record takes its command word and at least four bytes more
  | record r tail fits rest_eq _ _ there base_eq ready =>
      have hlen := r.encode_length
      refine ⟨tail, there, base_eq, ready, ?_⟩
      rw [rest_eq, List.length_append]
      omega
  | cutOff name tail fits rest_eq short _ _ there base_eq ready =>
      refine ⟨tail, there, base_eq, ready, ?_⟩
      simp only [rest_eq, Name.encode, List.length_append, toLE_length]
      omega

theorem extractLoop_finished {locationSize fuel : Nat} {error : Option String}
    (h : command target locationSize self tmpPath = .ok (.finished error)) :
    extractLoop target locationSize (fuel + 1) self tmpPath = .ok ([], error) := by
  rw [extractLoop, h]
  rfl

theorem extractLoop_next {locationSize fuel : Nat} {tmpPath' : Bytes} {effect : Option Effect}
    (h : command target locationSize self tmpPath = .ok (.next self' tmpPath' effect)) :
    extractLoop target locationSize (fuel + 1) self tmpPath =
      extractLoop target locationSize fuel self' tmpPath' >>= fun r =>
        .ok (effect.toList ++ r.1, r.2) := by
  rw [extractLoop, h]
  rfl

/-- The loop ends: every command but the last takes at least eight bytes. -/
theorem extractLoop_total (fuel : Nat) (h : self.At target rest) (hready : Ready location tmpPath)
    (hfuel : rest.length / 4 < fuel) :
    ∃ r, extractLoop target location.length fuel self tmpPath = .ok r := by
  -- each command shortens what is left by eight bytes, so four bytes a step suffice
  induction fuel generalizing self rest tmpPath with
  | zero => cases hfuel
  | succ fuel ih =>
      rcases command_done h hready with ⟨flow, hrun, hdone⟩
      cases flow with
      | finished error => exact ⟨_, extractLoop_finished hrun⟩
      | next self' tmpPath' effect =>
          rcases hdone.shorter with ⟨tail, hat, _, hready', hlen⟩
          rcases ih hat hready' (by omega) with ⟨r, hr⟩
          rw [extractLoop_next hrun, hr]
          exact ⟨_, rfl⟩

/-- Records that fit are extracted one after the other. -/
theorem extractLoop_records (records : List Record) (hfits : ∀ r ∈ records, r.FitsIn location)
    (h : self.At target (records.flatMap Record.encode ++ tail))
    (hready : Ready location tmpPath) (fuel : Nat) :
    ∃ self' tmpPath', self'.At target tail ∧ Ready location tmpPath' ∧
      extractLoop target location.length (records.length + fuel) self tmpPath =
        extractLoop target location.length fuel self' tmpPath' >>= fun r =>
          .ok (records.filterMap (Record.effect location) ++ r.1, r.2) := by
  -- one command for each record; the path is restored in between
  induction records generalizing self tmpPath with
  | nil =>
      refine ⟨self, tmpPath, h, hready, ?_⟩
      rw [List.length_nil, Nat.zero_add]
      cases extractLoop target location.length fuel self tmpPath <;> rfl
  | cons r records ih =>
      rw [List.flatMap_cons, List.append_assoc] at h
      rcases command_record h hready (hfits r List.mem_cons_self) with
        ⟨self₁, tmpPath₁, hrun, h₁, _, hready₁⟩
      rcases ih (fun r' hr' => hfits r' (List.mem_cons_of_mem _ hr')) h₁ hready₁ with
        ⟨self₂, tmpPath₂, h₂, hready₂, hrest⟩
      refine ⟨self₂, tmpPath₂, h₂, hready₂, ?_⟩
      rw [List.length_cons, Nat.add_right_comm, extractLoop_next hrun, hrest]
      cases extractLoop target location.length fuel self₂ tmpPath₂ with
      | error e => rfl
      | ok out =>
          simp only [Fallible.ok_bind, List.filterMap_cons]
          cases r.effect location <;> rfl

/-- Everything that the loop does when it ends. -/
inductive LoopDone (location : CString) : Bytes → List Effect → Option String → Prop
  | finish (tail : Bytes) : LoopDone location (toLE 4 300 ++ tail) [] none
  | failed (rest : Bytes) (error : String) : LoopDone location rest [] (some error)
  | cutOff (name : Name) (tail : Bytes) (fits : name.FitsIn location) (short : tail.length < 4) :
      LoopDone location (toLE 4 200 ++ (name.encode ++ tail)) [.writeFile (name.path location) []]
        (some "invalid nxarchive command")
  | record (r : Record) (tail : Bytes) (fits : r.FitsIn location) {effects : List Effect}
      {error : Option String} (rest_done : LoopDone location tail effects error) :
      LoopDone location (r.encode ++ tail) ((r.effect location).toList ++ effects) error

theorem extractLoop_done (fuel : Nat) {effects : List Effect} {error : Option String}
    (h : self.At target rest) (hready : Ready location tmpPath)
    (hrun : extractLoop target location.length fuel self tmpPath = .ok (effects, error)) :
    LoopDone location rest effects error := by
  -- by how the first command ends
  induction fuel generalizing self rest tmpPath effects with
  | zero => cases hrun
  | succ fuel ih =>
      rcases command_done h hready with ⟨flow, hcommand, hdone⟩
      cases hdone with
      | finish tail rest_eq =>
          rw [extractLoop_finished hcommand] at hrun
          cases hrun
          rw [rest_eq]
          exact .finish tail
      | failed error =>
          rw [extractLoop_finished hcommand] at hrun
          cases hrun
          exact .failed rest error
      | cutOff name tail fits rest_eq short self' tmpPath' there _ ready =>
          rw [extractLoop_next hcommand] at hrun
          rcases Fallible.bind_eq_ok.mp hrun with ⟨out, hout, hrun⟩
          -- the next command fails for want of bytes
          cases fuel with
          | zero => cases hout
          | succ fuel =>
              rw [extractLoop_finished (command_short there short _ _)] at hout
              cases hout
              cases hrun
              rw [rest_eq]
              exact .cutOff name tail fits short
      | record r tail fits rest_eq self' tmpPath' there _ ready =>
          rw [extractLoop_next hcommand] at hrun
          rcases Fallible.bind_eq_ok.mp hrun with ⟨⟨effects', error'⟩, hout, hrun⟩
          cases hrun
          rw [rest_eq]
          exact .record r tail fits (ih there ready hout)

/-- A loop that returns `NULL` has extracted records up to an end mark. -/
theorem LoopDone.null {effects : List Effect} {error : Option String}
    (h : LoopDone location rest effects error) (hnull : error = none) :
    ∃ (records : List Record) (tail : Bytes), (∀ r ∈ records, r.FitsIn location) ∧
      rest = records.flatMap Record.encode ++ (toLE 4 300 ++ tail) ∧
      effects = records.filterMap (Record.effect location) := by
  induction h with
  | finish tail => exact ⟨[], tail, by simp, rfl, rfl⟩
  | failed rest error => cases hnull
  | cutOff name tail fits short => cases hnull
  | record r tail fits _ ih =>
      rcases ih hnull with ⟨records, tail', hfits, rfl, rfl⟩
      refine ⟨r :: records, tail', ?_, ?_, ?_⟩
      · intro r' hr'
        rcases List.mem_cons.mp hr' with rfl | hr'
        · exact fits
        · exact hfits r' hr'
      · rw [List.flatMap_cons, List.append_assoc]
      · rw [List.filterMap_cons]
        cases r.effect location <;> rfl

/-! ## Whole archives -/

variable {stack : Fin pathMax → UInt8} {buf : Bytes}

theorem fromBuffer_at (hsize : buf.length ≤ target.ptrdiffMax) :
    (fromBuffer buf).At target buf :=
  ⟨rfl, Nat.zero_le _, hsize⟩

/-- The location is copied into an array as large as `tmp_path` when it fits. -/
theorem strcpyS_fits (stack : Fin pathMax → UInt8) (hfits : location.length + 1 ≤ pathMax) :
    ∃ dest, strcpyS (List.ofFn stack) pathMax location = .ok (dest, false) ∧
      location.Starts dest ∧ dest.length = pathMax := by
  have hlen : (List.ofFn stack).length = pathMax := List.length_ofFn
  rcases CString.store_zero location (by rw [hlen]; exact hfits) with ⟨dest, hstore, hstarts, hlen'⟩
  refine ⟨dest, ?_, hstarts, hlen'.trans hlen⟩
  rw [strcpyS, if_neg (by decide), if_neg (Nat.not_lt.mpr hfits), hstore]
  rfl

/-- The loop is entered when the location and the slash fit. -/
theorem extract_ready (target : Target) (stack : Fin pathMax → UInt8) (buf : Bytes)
    (hfits : location.length + 2 ≤ pathMax) :
    ∃ tmpPath, Ready location tmpPath ∧ extractArchiveFromBuffer target stack location buf =
      extractLoop target location.length (buf.length / 4 + 1) (fromBuffer buf) tmpPath := by
  -- first the location, then the slash
  rcases strcpyS_fits stack (Nat.le_of_succ_le hfits) with ⟨dest₁, hcopy, hstarts₁, hlen₁⟩
  rcases strcatS_fits (t := slash) hstarts₁ hlen₁ hfits with ⟨dest₂, hcat, hstarts₂, hlen₂⟩
  refine ⟨dest₂, ⟨hstarts₂, hlen₂⟩, ?_⟩
  rw [extractArchiveFromBuffer, extractArchive, hcopy, Fallible.ok_bind]
  simp only [Bool.false_eq_true, if_false, hcat, Fallible.ok_bind]
  rfl

/-- A location that does not fit is refused. -/
theorem extract_refused (target : Target) (stack : Fin pathMax → UInt8) (buf : Bytes)
    (hlong : ¬ location.length + 2 ≤ pathMax) :
    ∃ error, extractArchiveFromBuffer target stack location buf = .ok ([], some error) := by
  -- already the location is too long, or the slash is
  by_cases hcopy : location.length + 1 ≤ pathMax
  · rcases strcpyS_fits stack hcopy with ⟨dest, hcopied, hstarts, hlen⟩
    refine ⟨"strcpy_s failed for slash", ?_⟩
    rw [extractArchiveFromBuffer, extractArchive, hcopied, Fallible.ok_bind]
    simp only [Bool.false_eq_true, if_false, strcatS_long (t := slash) hstarts hlen hlong,
      Fallible.ok_bind, if_true]
    rfl
  · refine ⟨"strcpy_s failed for location", ?_⟩
    rw [extractArchiveFromBuffer, extractArchive, strcpyS, if_neg (by decide),
      if_pos (Nat.lt_of_not_le hcopy)]
    rfl

/-- Extraction ends, with `NULL` or an error. -/
theorem extract_total (target : Target) (stack : Fin pathMax → UInt8) (location : CString)
    {buf : Bytes} (hsize : buf.length ≤ target.ptrdiffMax) :
    ∃ effects error, extractArchiveFromBuffer target stack location buf = .ok (effects, error) := by
  by_cases hfits : location.length + 2 ≤ pathMax
  · rcases extract_ready target stack buf hfits with
      ⟨tmpPath, hready, hrun⟩
    rcases extractLoop_total (buf.length / 4 + 1) (fromBuffer_at hsize) hready
      (Nat.lt_succ_self _) with ⟨⟨effects, error⟩, hr⟩
    exact ⟨effects, error, hrun.trans hr⟩
  · rcases extract_refused target stack buf hfits with
      ⟨error, hrun⟩
    exact ⟨[], some error, hrun⟩

/-- The end mark is reached with fuel to spare. -/
theorem records_length_le (records : List Record) :
    8 * records.length ≤ (records.flatMap Record.encode).length := by
  induction records with
  | nil => exact Nat.le_refl _
  | cons r records ih =>
      have hlen := r.encode_length
      rw [List.flatMap_cons, List.length_append, List.length_cons]
      omega

/-- An archive of records that fit is extracted. -/
theorem extract_records (hfits : location.length + 2 ≤ pathMax) (records : List Record)
    (hrecords : ∀ r ∈ records, r.FitsIn location) (tail : Bytes)
    (hsize : (records.flatMap Record.encode ++ (toLE 4 300 ++ tail)).length ≤ target.ptrdiffMax) :
    extractArchiveFromBuffer target stack location
        (records.flatMap Record.encode ++ (toLE 4 300 ++ tail)) =
      .ok (records.filterMap (Record.effect location), none) := by
  rcases extract_ready target stack (records.flatMap Record.encode ++ (toLE 4 300 ++ tail)) hfits
    with ⟨tmpPath, hready, hrun⟩
  have hlen := records_length_le records
  -- the fuel that is left for the end mark
  rcases extractLoop_records records hrecords (fromBuffer_at hsize) hready
    ((records.flatMap Record.encode ++ (toLE 4 300 ++ tail)).length / 4 - records.length + 1) with
    ⟨self', tmpPath', hat, _, hloop⟩
  have hfuel : (records.flatMap Record.encode ++ (toLE 4 300 ++ tail)).length / 4 + 1 =
      records.length +
        ((records.flatMap Record.encode ++ (toLE 4 300 ++ tail)).length / 4 - records.length + 1) := by
    rw [List.length_append]
    omega
  rw [hrun, hfuel, hloop, extractLoop_finished (command_finish hat _ _), Fallible.ok_bind,
    List.append_nil]

/-- What is extracted without an error begins with complete records and an end mark. -/
theorem records_of_extract {target : Target} {stack : Fin pathMax → UInt8} {location : CString}
    {buf : Bytes} (hsize : buf.length ≤ target.ptrdiffMax) {effects : List Effect}
    (hnull : extractArchiveFromBuffer target stack location buf = .ok (effects, none)) :
    location.length + 2 ≤ pathMax ∧
      ∃ (records : List Record) (tail : Bytes), (∀ r ∈ records, r.FitsIn location) ∧
        buf = records.flatMap Record.encode ++ (toLE 4 300 ++ tail) ∧
        effects = records.filterMap (Record.effect location) := by
  by_cases hfits : location.length + 2 ≤ pathMax
  -- only a location that fits leads into the loop
  · rcases extract_ready target stack buf hfits with
      ⟨tmpPath, hready, hrun⟩
    rw [hrun] at hnull
    exact ⟨hfits, (extractLoop_done _ (fromBuffer_at hsize) hready hnull).null rfl⟩
  · rcases extract_refused target stack buf hfits with
      ⟨error, hrun⟩
    rw [hrun] at hnull
    cases hnull

/-- Extraction returns `NULL` exactly on archives that begin with complete records, whose paths fit,
and an end mark; and its effects are then those of the records, in order. -/
theorem extract_null_iff (target : Target) (stack : Fin pathMax → UInt8) (location : CString)
    (buf : Bytes) (hsize : buf.length ≤ target.ptrdiffMax) (effects : List Effect) :
    extractArchiveFromBuffer target stack location buf = .ok (effects, none) ↔
      location.length + 2 ≤ pathMax ∧
        ∃ (records : List Record) (tail : Bytes), (∀ r ∈ records, r.FitsIn location) ∧
          buf = records.flatMap Record.encode ++ (toLE 4 300 ++ tail) ∧
          effects = records.filterMap (Record.effect location) := by
  constructor
  · exact records_of_extract hsize
  · rintro ⟨hfits, records, tail, hrecords, rfl, rfl⟩
    exact extract_records hfits records hrecords tail hsize

/-- A directory `a`, a file `a/b` in it, and a byte behind the end mark, extracted to `d`. -/
theorem extract_null_directory :
    let location : CString := ⟨[0x64], by decide⟩
    let a : Name := ⟨[0x61, 0], ⟨[0x61], rfl⟩, by decide⟩
    let b : Name := ⟨[0x61, 0x2f, 0x62, 0], ⟨[0x61, 0x2f, 0x62], rfl⟩, by decide⟩
    let records : List Record := [.start, .directory a, .file b ⟨[1, 2, 3], by decide⟩]
    extractArchiveFromBuffer .aarch64 (fun _ => 0xff) location
        (records.flatMap Record.encode ++ (toLE 4 300 ++ [7])) =
      .ok ([.makeDirectory (a.path location), .writeFile (b.path location) [1, 2, 3]], none) :=
  (extract_null_iff .aarch64 (fun _ => 0xff) ⟨[0x64], by decide⟩ _ (by decide) _).mpr
    ⟨by decide, _, [7], by simp [Record.FitsIn, Name.FitsIn]; decide, rfl, rfl⟩

end NxArchive
end KnShim
