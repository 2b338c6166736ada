import KnShim.AndrLeaf.Load

/-!
# AndrLeaf.Headers — what reading the headers comes to

`Input.phdr` is the program header that the buffer has at an index, and `HeadersRead` says when the
first ones are all read.  The specifications of `readEhdr` and `readPhdrs` say for every buffer
whether they go on, return an error string or leave the buffer.
-/

namespace KnShim
namespace AndrLeaf

open Lib Load

variable {cls : ElfClass}

/-! ## The buffer -/

namespace Input

variable (input : Input cls)

/-- `length`. -/
def length : Nat := input.bytes.length

/-- The bytes of the ELF header. -/
def ehdr : Bytes := input.bytes.take (LeafEhdr.size cls)

def phoff : Nat := (LeafEhdr.ePhoff cls).value input.ehdr

def phentsize : Nat := (LeafEhdr.ePhentsize cls).value input.ehdr

def phnum : Nat := (LeafEhdr.ePhnum cls).value input.ehdr

/-- `count` bytes of the buffer. -/
def slice (start count : Nat) : Bytes := (input.bytes.drop start).take count

/-- The bytes of a program header. -/
def phdr (i : Nat) : Bytes := input.slice (input.phoff + i * input.phentsize) input.phentsize

end Input

/-- Offsets that are no further behind the buffer than a program header is long do not wrap. -/
theorem Input.add_lt (input : Input cls) {n : Nat} (hn : n < 65536) :
    input.length + n < 2 ^ cls.bits := by
  have hlen := input.length_lt
  rw [Input.length]
  cases cls with
  | elf32 =>
      simp only [ElfClass.bits] at hlen ⊢
      omega
  | elf64 =>
      simp only [ElfClass.bits] at hlen ⊢
      omega

theorem Input.length_lt_pow (input : Input cls) : input.length < 2 ^ cls.bits :=
  input.add_lt (n := 0) (by decide)

theorem Input.phentsize_lt (input : Input cls) : input.phentsize < 65536 := by
  have hsize : (LeafEhdr.ePhentsize cls).size = 2 := by cases cls <;> rfl
  have hlt := (LeafEhdr.ePhentsize cls).value_lt input.ehdr
  rwa [hsize] at hlt

theorem Input.ehdr_size_lt (cls : ElfClass) : LeafEhdr.size cls < 65536 := by
  cases cls <;> decide

/-! ## Reads -/

/-- A read goes through inside the buffer.  Behind it the read is refused, unless the sum has
wrapped around, where it leaves the buffer. -/
theorem leafStreamReadInto_eq (stream : LeafStream cls) (count : Nat) :
    leafStreamReadInto stream count =
      if stream.pos + count ≤ stream.input.length then
        .ok (some (stream.input.slice stream.pos count),
          leafStreamSetpos stream (stream.pos + count))
      else if stream.exceeds count then
        .ok (none, stream)
      else
        .error .outOfBounds := by
  by_cases hin : stream.pos + count ≤ stream.input.length
  · have hmod : (stream.pos + count) % 2 ^ cls.bits = stream.pos + count :=
      Nat.mod_eq_of_lt (lt_of_le_of_lt hin stream.input.length_lt_pow)
    have hfits : ¬ stream.exceeds count := by
      rw [LeafStream.exceeds, hmod]
      exact Nat.not_lt_of_le hin
    rw [leafStreamReadInto, if_neg hfits, if_pos hin, readSlice_of_le hin, hmod]
    rfl
  · rw [leafStreamReadInto, if_neg hin]
    by_cases hexceeds : stream.exceeds count
    · rw [if_pos hexceeds, if_pos hexceeds]
    · rw [if_neg hexceeds, if_neg hexceeds, readSlice,
        if_neg (show ¬ stream.pos + count ≤ stream.input.bytes.length from hin)]
      rfl

theorem leafStreamRead_true (stream : LeafStream cls) (count : Nat) :
    leafStreamRead true stream count = leafStreamReadInto stream count := by
  rw [leafStreamRead]
  by_cases hexceeds : stream.exceeds count
  · rw [if_pos hexceeds, leafStreamReadInto, if_pos hexceeds]
  · rw [if_neg hexceeds, if_pos rfl]

theorem leafStreamRead_false (stream : LeafStream cls) (count : Nat) :
    leafStreamRead false stream count = .ok (none, stream) := by
  rw [leafStreamRead]
  by_cases hexceeds : stream.exceeds count
  · rw [if_pos hexceeds]
  · rw [if_neg hexceeds, if_neg Bool.false_ne_true]

/-- Close to the buffer a sum does not wrap around. -/
theorem exceeds_of_lt {stream : LeafStream cls} {count : Nat}
    (hpos : stream.pos ≤ stream.input.length)
    (hcount : count < 65536) (h : stream.input.length < stream.pos + count) :
    stream.exceeds count := by
  have hlt : stream.pos + count < 2 ^ cls.bits :=
    lt_of_le_of_lt (Nat.add_le_add_right hpos count) (stream.input.add_lt hcount)
  rw [LeafStream.exceeds, Nat.mod_eq_of_lt hlt]
  exact h

/-- The first read from the stream. -/
theorem leafStreamReadInto_init (input : Input cls) {count : Nat} (h : count ≤ input.length) :
    leafStreamReadInto (leafStreamInit input) count =
      .ok (some (input.bytes.take count), ⟨input, count⟩) := by
  have hin : (leafStreamInit input).pos + count ≤ (leafStreamInit input).input.length := by
    rwa [leafStreamInit, Nat.zero_add]
  rw [leafStreamReadInto_eq, if_pos hin]
  simp only [leafStreamInit, leafStreamSetpos, Nat.zero_add, Input.slice, List.drop_zero]

/-! ## The ELF header -/

section Ehdr

variable (sys : System cls) (input : Input cls)

/-- The ELF header is there. -/
def EhdrRead : Prop := sys.mallocEhdr = true ∧ LeafEhdr.size cls ≤ input.length

/-- The ELF header passes the checks. -/
def HeaderOk : Prop := EhdrRead sys input ∧ checkEhdr cls input.ehdr = none

theorem readEhdr_of_ok {sys : System cls} {input : Input cls} (h : HeaderOk sys input)
    (leaf : LeafObject cls.bits) :
    readEhdr sys input leaf = .ok (input.ehdr, ⟨input, LeafEhdr.size cls⟩,
      { leaf with ehdr := some input.ehdr }) := by
  rcases h with ⟨⟨hmalloc, hlen⟩, hcheck⟩
  rw [readEhdr, hmalloc, leafStreamRead_true, leafStreamReadInto_init input hlen, ← Input.ehdr]
  simp only [attempt_ok, ok_bind, hcheck, pure_eq]

/-- Otherwise an error string is returned, and there is no array of program headers. -/
theorem readEhdr_of_not_ok {sys : System cls} {input : Input cls} (h : ¬ HeaderOk sys input)
    (leaf : LeafObject cls.bits) :
    ∃ error ehdr, readEhdr sys input leaf = fail error { leaf with ehdr := ehdr } := by
  cases hmalloc : sys.mallocEhdr with
  | false =>
      refine ⟨"Failed to read header", none, ?_⟩
      rw [readEhdr, hmalloc, leafStreamRead_false]
      rfl
  | true =>
      by_cases hlen : LeafEhdr.size cls ≤ input.length
      · -- the header is read, so it is a check that fails
        cases hcheck : checkEhdr cls input.ehdr with
        | none => exact absurd ⟨⟨hmalloc, hlen⟩, hcheck⟩ h
        | some error =>
            refine ⟨error, some input.ehdr, ?_⟩
            rw [readEhdr, hmalloc, leafStreamRead_true, leafStreamReadInto_init input hlen,
              ← Input.ehdr]
            simp only [attempt_ok, ok_bind, hcheck]
      · have hout : ¬ (leafStreamInit input).pos + LeafEhdr.size cls ≤
            (leafStreamInit input).input.length := by
          rwa [leafStreamInit, Nat.zero_add]
        have hexceeds : (leafStreamInit input).exceeds (LeafEhdr.size cls) :=
          exceeds_of_lt (Nat.zero_le _) (Input.ehdr_size_lt cls) (Nat.lt_of_not_le hout)
        refine ⟨"Failed to read header", none, ?_⟩
        rw [readEhdr, hmalloc, leafStreamRead_true, leafStreamReadInto_eq, if_neg hout,
          if_pos hexceeds]
        rfl

end Ehdr

/-! ## The program headers -/

section Phdrs

variable (sys : System cls) (input : Input cls)

/-- The first `n` program headers are there. -/
def HeadersRead (n : Nat) : Prop :=
  (∀ i, i < n → sys.mallocPhdr i = true) ∧ (n = 0 ∨ input.phoff + n * input.phentsize ≤ input.length)

/-- The end of the first program header wraps around into the buffer. -/
def FirstWraps : Prop :=
  sys.mallocPhdr 0 = true ∧ input.length < input.phoff + input.phentsize ∧
    (input.phoff + input.phentsize) % 2 ^ cls.bits ≤ input.length

instance (n : Nat) : Decidable (HeadersRead sys input n) :=
  inferInstanceAs (Decidable (_ ∧ _))

instance : Decidable (FirstWraps sys input) := inferInstanceAs (Decidable (_ ∧ _))

/-- The array when the first `k` of `n` program headers were read. -/
def Input.slots (n k : Nat) : List PhdrSlot :=
  (List.range k).map (fun i => .header (input.phdr i)) ++ List.replicate (n - k) .unset ++ [.null]

variable {sys input}

theorem HeadersRead.mono {n k : Nat} (h : HeadersRead sys input n) (hk : k ≤ n) :
    HeadersRead sys input k := by
  rcases h with ⟨hmalloc, hend⟩
  refine ⟨fun i hi => hmalloc i (lt_of_lt_of_le hi hk), ?_⟩
  rcases hend with rfl | hend
  · exact Or.inl (Nat.le_zero.mp hk)
  · have hmul : k * input.phentsize ≤ n * input.phentsize := Nat.mul_le_mul_right _ hk
    exact Or.inr (le_trans (Nat.add_le_add_left hmul _) hend)

/-- The next slot is filled in. -/
theorem Input.slots_succ (input : Input cls) {n k : Nat} (hk : k < n) :
    (input.slots n k).set k (.header (input.phdr k)) = input.slots n (k + 1) := by
  have hlen : ((List.range k).map fun i => PhdrSlot.header (input.phdr i)).length = k := by simp
  obtain ⟨rest, hrest⟩ : ∃ rest, n - k = rest + 1 := ⟨n - k - 1, by omega⟩
  have hnext : n - (k + 1) = rest := by omega
  rw [slots, slots, List.append_assoc, hrest, hnext, List.replicate_succ, List.cons_append,
    List.set_append_right _ _ (by rw [hlen]), hlen, Nat.sub_self, List.set_cons_zero,
    List.range_succ, List.map_append, List.append_assoc, List.append_assoc]
  rfl

/-- One header is read. -/
theorem readPhdr_of_read {k : Nat} {leaf : LeafObject cls.bits} {n pos : Nat}
    (hpos : pos = input.phoff + k * input.phentsize) (hk : k < n)
    (h : HeadersRead sys input (k + 1)) :
    readPhdr sys input.phentsize
        (⟨input, pos⟩, { leaf with phdrs := some (input.slots n k) }) k =
      .ok (⟨input, input.phoff + (k + 1) * input.phentsize⟩,
        { leaf with phdrs := some (input.slots n (k + 1)) }) := by
  have hend : input.phoff + (k + 1) * input.phentsize ≤ input.length :=
    h.2.resolve_left (Nat.succ_ne_zero k)
  have hnext : pos + input.phentsize = input.phoff + (k + 1) * input.phentsize := by
    rw [hpos, Nat.succ_mul, Nat.add_assoc]
  rw [readPhdr, h.1 k (Nat.lt_succ_self k), leafStreamRead_true, leafStreamReadInto_eq,
    if_pos (by simpa only [hnext] using hend)]
  simp only [attempt_ok, ok_bind, pure_eq, LeafObject.setPhdr, Option.map_some, leafStreamSetpos,
    hnext]
  rw [← input.slots_succ hk, Input.phdr, hpos]

/-- The loop over the headers that are there. -/
theorem readPhdrs_first (leaf : LeafObject cls.bits) {n k : Nat} (hk : k ≤ n)
    (h : HeadersRead sys input k) :
    (List.range k).foldlM (readPhdr sys input.phentsize)
        (⟨input, input.phoff⟩, { leaf with phdrs := some (input.slots n 0) }) =
      .ok (⟨input, input.phoff + k * input.phentsize⟩,
        { leaf with phdrs := some (input.slots n k) }) := by
  -- induction on the number of rounds
  induction k with
  | zero =>
      rw [Nat.zero_mul, Nat.add_zero]
      rfl
  | succ k ih =>
      rw [List.range_succ, List.foldlM_append, ih (Nat.le_of_succ_le hk)
        (h.mono (Nat.le_succ k)), ok_bind, List.foldlM_cons, readPhdr_of_read rfl hk h]
      rfl

/-- When the first header wraps around, it is the one that is not there. -/
theorem FirstWraps.eq_zero {k : Nat} (h : FirstWraps sys input) (hread : HeadersRead sys input k) :
    k = 0 := by
  rcases hread.2 with rfl | hend
  · rfl
  · cases k with
    | zero => rfl
    | succ k =>
        have hout := h.2.1
        rw [Nat.succ_mul] at hend
        omega

/-- A header that is not there. -/
theorem readPhdr_of_not_read {k : Nat} {leaf : LeafObject cls.bits}
    (hread : HeadersRead sys input k) (hnot : ¬ HeadersRead sys input (k + 1)) :
    readPhdr sys input.phentsize (⟨input, input.phoff + k * input.phentsize⟩, leaf) k =
      if FirstWraps sys input then .error (.fault .outOfBounds)
      else fail "Failed to read a program header" leaf := by
  cases hmalloc : sys.mallocPhdr k with
  | false =>
      have hwraps : ¬ FirstWraps sys input := by
        intro hfirst
        rw [hfirst.eq_zero hread, hfirst.1] at hmalloc
        cases hmalloc
      rw [readPhdr, hmalloc, leafStreamRead_false, if_neg hwraps]
      rfl
  | true =>
      -- there is memory for the header, so the buffer ends too early
      have hnext : input.phoff + k * input.phentsize + input.phentsize =
          input.phoff + (k + 1) * input.phentsize := by rw [Nat.succ_mul, Nat.add_assoc]
      have hall : ∀ i, i < k + 1 → sys.mallocPhdr i = true := by
        intro i hi
        rcases Nat.lt_or_eq_of_le (Nat.le_of_lt_succ hi) with hlt | rfl
        · exact hread.1 i hlt
        · exact hmalloc
      have hend : ¬ input.phoff + k * input.phentsize + input.phentsize ≤ input.length := by
        intro hle
        exact hnot ⟨hall, Or.inr (hnext ▸ hle)⟩
      rw [readPhdr, hmalloc, leafStreamRead_true, leafStreamReadInto_eq, if_neg hend]
      by_cases hexceeds : LeafStream.exceeds
          ⟨input, input.phoff + k * input.phentsize⟩ input.phentsize
      · have hwraps : ¬ FirstWraps sys input := by
          intro hfirst
          rw [hfirst.eq_zero hread, LeafStream.exceeds, Nat.zero_mul, Nat.add_zero] at hexceeds
          exact Nat.not_lt_of_le hfirst.2.2 hexceeds
        rw [if_pos hexceeds, if_neg hwraps]
        rfl
      · -- only the first header can be so far away
        have hwraps : FirstWraps sys input := by
          rcases hread.2 with rfl | hpos
          · rw [Nat.zero_mul, Nat.add_zero] at hend hexceeds
            exact ⟨hmalloc, Nat.lt_of_not_le hend, Nat.le_of_not_lt hexceeds⟩
          · exact absurd (exceeds_of_lt hpos input.phentsize_lt (Nat.lt_of_not_le hend)) hexceeds
        rw [if_neg hexceeds, if_pos hwraps]
        rfl

/-- The loop stops at the first header that is not there. -/
theorem readPhdrs_stops (leaf : LeafObject cls.bits) {n k : Nat} (hk : k ≤ n)
    (h : ¬ HeadersRead sys input k) :
    ∃ j, j < k ∧
      (List.range k).foldlM (readPhdr sys input.phentsize)
          (⟨input, input.phoff⟩, { leaf with phdrs := some (input.slots n 0) }) =
        if FirstWraps sys input then .error (.fault .outOfBounds)
        else fail "Failed to read a program header"
          { leaf with phdrs := some (input.slots n j) } := by
  -- induction on the number of rounds
  induction k with
  | zero => exact absurd ⟨fun i hi => absurd hi (Nat.not_lt_zero i), Or.inl rfl⟩ h
  | succ k ih =>
      rw [List.range_succ, List.foldlM_append]
      by_cases hread : HeadersRead sys input k
      · refine ⟨k, Nat.lt_succ_self k, ?_⟩
        rw [readPhdrs_first leaf (Nat.le_of_succ_le hk) hread, ok_bind, List.foldlM_cons,
          readPhdr_of_not_read hread h]
        split
        · rfl
        · rfl
      · -- the loop has stopped before
        rcases ih (Nat.le_of_succ_le hk) hread with ⟨j, hj, hstop⟩
        refine ⟨j, Nat.lt_succ_of_lt hj, ?_⟩
        rw [hstop]
        split
        · rfl
        · rfl

/-- The array with all of the headers. -/
def Input.allSlots (input : Input cls) : List PhdrSlot :=
  (List.range input.phnum).map (fun i => .header (input.phdr i)) ++ [.null]

theorem Input.slots_all (input : Input cls) :
    input.slots input.phnum input.phnum = input.allSlots := by
  rw [slots, Nat.sub_self, List.replicate_zero, List.append_nil, allSlots]

theorem Input.slots_start (input : Input cls) (n : Nat) :
    input.slots n 0 = List.replicate n .unset ++ [.null] := by
  rw [slots, List.range_zero, List.map_nil, List.nil_append, Nat.sub_zero]

/-- All headers are read. -/
theorem readPhdrs_of_read (hmalloc : sys.mallocPhdrs = true)
    (h : HeadersRead sys input input.phnum) (pos : Nat) (leaf : LeafObject cls.bits) :
    ∃ pos', readPhdrs sys input.ehdr ⟨input, pos⟩ leaf =
      .ok (input.phnum, ⟨input, pos'⟩, { leaf with phdrs := some input.allSlots }) := by
  refine ⟨input.phoff + input.phnum * input.phentsize, ?_⟩
  have hloop := readPhdrs_first leaf (Nat.le_refl input.phnum) h
  rw [input.slots_start, input.slots_all] at hloop
  rw [readPhdrs, if_pos hmalloc]
  simp only [Input.phentsize, Input.phoff, Input.phnum] at hloop ⊢
  rw [leafStreamSetpos, hloop]
  rfl

/-- Some header is not there. -/
theorem readPhdrs_of_not_read (hmalloc : sys.mallocPhdrs = true)
    (h : ¬ HeadersRead sys input input.phnum) (pos : Nat) (leaf : LeafObject cls.bits) :
    ∃ k, k < input.phnum ∧ readPhdrs sys input.ehdr ⟨input, pos⟩ leaf =
      if FirstWraps sys input then .error (.fault .outOfBounds)
      else fail "Failed to read a program header"
        { leaf with phdrs := some (input.slots input.phnum k) } := by
  rcases readPhdrs_stops leaf (Nat.le_refl input.phnum) h with ⟨k, hk, hloop⟩
  refine ⟨k, hk, ?_⟩
  rw [input.slots_start] at hloop
  rw [readPhdrs, if_pos hmalloc]
  simp only [Input.phentsize, Input.phoff, Input.phnum] at hloop ⊢
  rw [leafStreamSetpos, hloop]
  split
  · rfl
  · rfl

end Phdrs

/-! ## Small files -/

namespace Sample

/-- A 32-bit ELF header; the program headers follow it. -/
def ehdr (phentsize phnum : Nat) : Bytes :=
  elfSignature ++ [1, 1, 1] ++ List.replicate 9 0 ++ toLE 2 etDyn ++ List.replicate 10 0 ++
    toLE 4 52 ++ List.replicate 10 0 ++ toLE 2 phentsize ++ toLE 2 phnum ++ List.replicate 6 0

/-- A 32-bit program header. -/
def phdr (type offset vaddr filesz memsz : Nat) : Bytes :=
  toLE 4 type ++ toLE 4 offset ++ toLE 4 vaddr ++ toLE 4 0 ++ toLE 4 filesz ++ toLE 4 memsz ++
    List.replicate 8 0

/-- A 32-bit dynamic entry. -/
def dyn (tag value : Nat) : Bytes := toLE 4 tag ++ toLE 4 value

/-- A system that has memory for everything, and maps a small size at one address. -/
def system : System .elf32 where
  memory := fun _ => 0xaa
  mallocEhdr := true
  mallocPhdrs := true
  mallocPhdr := fun _ => true
  mmap := fun size => if size = 0 ∨ 4096 < size then none else some 0x10000
  strerror := "Invalid argument"
  mmap_valid := by
    intro size base h
    by_cases hsize : size = 0 ∨ 4096 < size
    · rw [if_pos hsize] at h
      cases h
    · rw [if_neg hsize] at h
      cases h
      refine ⟨fun hzero => hsize (Or.inl hzero), by decide, by decide, ?_⟩
      have hbase : (0x10000 : BitVec (ElfClass.bits .elf32)).toNat = 0x10000 := by decide
      have hpow : 2 ^ ElfClass.bits .elf32 = 4294967296 := by decide
      rw [hbase, hpow]
      omega

end Sample

end AndrLeaf
end KnShim
