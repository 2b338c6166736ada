import KnShim.NxArchive.Heads

/-!
# Truncation — archives that are cut off

Records have a unique decoding (`Record.encode_append_inj`), so a buffer determines which of its
records are complete and where it is cut off.  `Intact` says that extraction respects that: every
effect is that of a complete record, and a record that is cut off is reported and has none.

There is one place where it does not.  `NXReadInt` reads the size of a file as 0 when fewer than four
bytes are left, and a file of size 0 needs no more bytes: it is written.  `extract_intact_iff` says
that an archive is handled as it should be exactly when it is not cut off there.
-/

namespace KnShim
namespace NxArchive

open Lib

/-! ## Unique decoding -/

theorem toLE_append_inj {n m : Nat} (hn : n < 2 ^ 32) (hm : m < 2 ^ 32) {a b : Bytes}
    (h : toLE 4 n ++ a = toLE 4 m ++ b) : n = m ∧ a = b := by
  rcases List.append_inj h (by rw [toLE_length, toLE_length]) with ⟨hword, hrest⟩
  refine ⟨?_, hrest⟩
  calc
    n = ofLE (toLE 4 n) := (ofLE_toLE_of_lt hn).symm
    _ = ofLE (toLE 4 m) := by rw [hword]
    _ = m := ofLE_toLE_of_lt hm

/-- Bytes behind their length. -/
theorem block_append_inj {bs cs : Bytes} (hbs : bs.length < 2 ^ 32) (hcs : cs.length < 2 ^ 32)
    {a b : Bytes}
    (h : toLE 4 bs.length ++ (bs ++ a) = toLE 4 cs.length ++ (cs ++ b)) : bs = cs ∧ a = b := by
  rcases toLE_append_inj hbs hcs h with ⟨hlen, hrest⟩
  exact List.append_inj hrest hlen

theorem Name.ext_bytes {name name' : Name} (h : name.bytes = name'.bytes) : name = name' := by
  cases name
  cases name'
  cases h
  rfl

theorem Name.encode_append_inj {name name' : Name} {a b : Bytes}
    (h : name.encode ++ a = name'.encode ++ b) : name = name' ∧ a = b := by
  rw [Name.encode, Name.encode, List.append_assoc, List.append_assoc] at h
  rcases block_append_inj name.fits name'.fits h with ⟨hbytes, hrest⟩
  exact ⟨Name.ext_bytes hbytes, hrest⟩

namespace Record

/-- The command word of a record. -/
def word : Record → Nat
  | .start => 100
  | .file _ _ => 200
  | .directory _ => 201

/-- What stands behind the command word. -/
def body : Record → Bytes
  | .start => toLE 4 0x584e0001
  | .file name content => name.encode ++ (toLE 4 content.bytes.length ++ content.bytes)
  | .directory name => name.encode

theorem encode_eq (r : Record) : r.encode = toLE 4 r.word ++ r.body := by cases r <;> rfl

theorem word_lt (r : Record) : r.word < 300 := by cases r <;> simp [word]

/-- A record is not an end mark. -/
theorem encode_append_ne (r : Record) (a b : Bytes) : r.encode ++ a ≠ toLE 4 300 ++ b := by
  intro h
  rw [r.encode_eq, List.append_assoc] at h
  have hword := (toLE_append_inj (lt_trans r.word_lt (by decide)) (by decide) h).1
  exact absurd hword (Nat.ne_of_lt r.word_lt)

/-- What is encoded, and where it ends, can be read off the bytes. -/
theorem encode_append_inj {r r' : Record} {a b : Bytes} (h : r.encode ++ a = r'.encode ++ b) :
    r = r' ∧ a = b := by
  rw [r.encode_eq, r'.encode_eq, List.append_assoc, List.append_assoc] at h
  rcases toLE_append_inj (lt_trans r.word_lt (by decide)) (lt_trans r'.word_lt (by decide)) h with
    ⟨hword, hbody⟩
  -- the command word tells the kind
  cases r with
  | start =>
      cases r' with
      | start => exact ⟨rfl, List.append_cancel_left hbody⟩
      | file name' content' => cases hword
      | directory name' => cases hword
  | file name content =>
      cases r' with
      | start => cases hword
      | file name' content' =>
          simp only [body, List.append_assoc] at hbody
          rcases Name.encode_append_inj hbody with ⟨rfl, hrest⟩
          rcases block_append_inj content.fits content'.fits hrest with ⟨hbytes, hab⟩
          cases content
          cases content'
          cases hbytes
          exact ⟨rfl, hab⟩
      | directory name' => cases hword
  | directory name =>
      cases r' with
      | start => cases hword
      | file name' content' => cases hword
      | directory name' =>
          rcases Name.encode_append_inj hbody with ⟨rfl, hab⟩
          exact ⟨rfl, hab⟩

end Record

/-! ## What is wanted of an archive that is cut off -/

/-- The outcome of an extraction respects where the buffer ends. -/
structure Intact (location : CString) (buf : Bytes) (out : List Effect × Option String) :
    Prop where
  /-- The effects are those of complete records. -/
  complete : ∃ (records : List Record) (rest : Bytes),
    buf = records.flatMap Record.encode ++ rest ∧ out.1 = records.filterMap (Record.effect location)
  /-- A record that is cut off at any byte is an error, and has no effect. -/
  cutOff : ∀ (records : List Record) (r : Record) (part more : Bytes),
    buf = records.flatMap Record.encode ++ part → part ++ more = r.encode → more ≠ [] →
    out.2 ≠ none ∧ out.1 <+: records.filterMap (Record.effect location)

/-- The buffer ends in the size of a file whose name has been read. -/
def EndsInSize (location : CString) (buf : Bytes) : Prop :=
  ∃ (records : List Record) (name : Name) (tail : Bytes),
    (∀ r ∈ records, r.FitsIn location) ∧ name.FitsIn location ∧ tail.length < 4 ∧
      buf = records.flatMap Record.encode ++ (toLE 4 200 ++ (name.encode ++ tail))

variable {target : Target} {stack : Fin pathMax → UInt8} {location : CString}
  {buf rest tmpPath : Bytes} {self : Extractor}

theorem EndsInSize.cons {r : Record} (hfits : r.FitsIn location) {tail : Bytes}
    (h : EndsInSize location tail) : EndsInSize location (r.encode ++ tail) := by
  rcases h with ⟨records, name, end', hrecords, hname, hshort, rfl⟩
  refine ⟨r :: records, name, end', ?_, hname, hshort, ?_⟩
  · intro r' hr'
    rcases List.mem_cons.mp hr' with rfl | hr'
    · exact hfits
    · exact hrecords r' hr'
  · rw [List.flatMap_cons, List.append_assoc]

/-! ## The loop -/

/-- Where no record begins that fits, and neither an end mark nor a cut-off size, the loop ends with
an error. -/
theorem command_stops (h : self.At target rest) (hready : Ready location tmpPath)
    (hcut : ¬ EndsInSize location rest)
    (hrecord : ∀ (r : Record) (tail : Bytes), r.FitsIn location → rest ≠ r.encode ++ tail)
    (hfinish : ∀ tail, rest ≠ toLE 4 300 ++ tail) :
    ∃ error, command target location.length self tmpPath = .ok (.finished (some error)) := by
  rcases command_done h hready with ⟨flow, hrun, hdone⟩
  cases hdone with
  | record r tail fits rest_eq _ _ _ _ _ => exact absurd rest_eq (hrecord r tail fits)
  | cutOff name tail fits rest_eq short _ _ _ _ _ =>
      exact absurd ⟨[], name, tail, by simp, fits, short, by simpa using rest_eq⟩ hcut
  | finish tail rest_eq => exact absurd rest_eq (hfinish tail)
  | failed error => exact ⟨error, hrun⟩

/-- The effects of the loop are those of complete records. -/
theorem LoopDone.complete {effects : List Effect} {error : Option String}
    (h : LoopDone location rest effects error) (hcut : ¬ EndsInSize location rest) :
    ∃ (records : List Record) (tail : Bytes),
      rest = records.flatMap Record.encode ++ tail ∧
        effects = records.filterMap (Record.effect location) := by
  induction h with
  | finish tail => exact ⟨[], _, rfl, rfl⟩
  | failed rest error => exact ⟨[], rest, rfl, rfl⟩
  | cutOff name tail fits short =>
      exact absurd ⟨[], name, tail, by simp, fits, short, by simp⟩ hcut
  | record r tail fits _ ih =>
      have hcut' : ¬ EndsInSize location tail := fun h' => hcut (h'.cons fits)
      rcases ih hcut' with ⟨records, tail', rfl, rfl⟩
      refine ⟨r :: records, tail', ?_, ?_⟩
      · rw [List.flatMap_cons, List.append_assoc]
      · rw [List.filterMap_cons]
        cases r.effect location <;> rfl

/-- A record that is cut off ends the loop with an error. -/
theorem extractLoop_cutOff (records : List Record) (fuel : Nat) {r : Record} {part more : Bytes}
    (h : self.At target (records.flatMap Record.encode ++ part)) (hready : Ready location tmpPath)
    (hcut : ¬ EndsInSize location (records.flatMap Record.encode ++ part))
    (hpart : part ++ more = r.encode) (hmore : more ≠ [])
    (hfuel : (records.flatMap Record.encode ++ part).length / 4 < fuel) :
    ∃ effects error, extractLoop target location.length fuel self tmpPath =
        .ok (effects, some error) ∧ effects <+: records.filterMap (Record.effect location) := by
  induction records generalizing self tmpPath fuel with
  | nil =>
      rcases fuel with _ | fuel
      · cases hfuel
      -- what is left is a part of a record, so no record begins here
      have hrecord : ∀ (r' : Record) (tail : Bytes), r'.FitsIn location →
          part ≠ r'.encode ++ tail := by
        rintro r' tail _ rfl
        have hboth : r'.encode ++ (tail ++ more) = r.encode ++ [] := by
          rw [List.append_nil, ← List.append_assoc]
          exact hpart
        exact hmore (List.append_eq_nil_iff.mp (Record.encode_append_inj hboth).2).2
      have hfinish : ∀ tail, part ≠ toLE 4 300 ++ tail := by
        rintro tail rfl
        refine r.encode_append_ne [] (tail ++ more) ?_
        rw [List.append_nil, ← List.append_assoc]
        exact hpart.symm
      rcases command_stops h hready hcut hrecord hfinish with ⟨error, hrun⟩
      exact ⟨[], error, extractLoop_finished hrun, List.nil_prefix⟩
  | cons r₁ records ih =>
      rcases fuel with _ | fuel
      · cases hfuel
      rw [List.flatMap_cons, List.append_assoc] at h hcut hfuel
      by_cases hfits : r₁.FitsIn location
      · rcases command_record h hready hfits with ⟨self₁, tmpPath₁, hrun, h₁, _, hready₁⟩
        have hlen := r₁.encode_length
        rw [List.length_append] at hfuel
        rcases ih fuel h₁ hready₁ (fun h' => hcut (h'.cons hfits)) (by omega) with
          ⟨effects, error, hrest, hprefix⟩
        refine ⟨(r₁.effect location).toList ++ effects, error, ?_, ?_⟩
        · rw [extractLoop_next hrun, hrest]
          rfl
        · rw [List.filterMap_cons]
          cases r₁.effect location with
          | none => exact hprefix
          | some effect => exact List.prefix_cons_inj effect |>.mpr hprefix
      · -- a path that does not fit is an error already
        have hrecord : ∀ (r' : Record) (tail : Bytes), r'.FitsIn location →
            r₁.encode ++ (records.flatMap Record.encode ++ part) ≠ r'.encode ++ tail := by
          intro r' tail hfits' heq
          exact hfits ((Record.encode_append_inj heq).1 ▸ hfits')
        rcases command_stops h hready hcut hrecord (fun tail => r₁.encode_append_ne _ tail) with
          ⟨error, hrun⟩
        exact ⟨[], error, extractLoop_finished hrun, List.nil_prefix⟩

/-! ## Whole archives -/

theorem intact_of_not_endsInSize (target : Target) (stack : Fin pathMax → UInt8)
    (hsize : buf.length ≤ target.ptrdiffMax) (hcut : ¬ EndsInSize location buf) :
    ∃ out, extractArchiveFromBuffer target stack location buf = .ok out ∧
      Intact location buf out := by
  by_cases hfits : location.length + 2 ≤ pathMax
  · rcases extract_ready target stack buf hfits with ⟨tmpPath, hready, hrun⟩
    rcases extract_total target stack location hsize with ⟨effects, error, hout⟩
    refine ⟨(effects, error), hout, ?_, ?_⟩
    · rw [hrun] at hout
      exact (extractLoop_done _ (fromBuffer_at hsize) hready hout).complete hcut
    · rintro records r part more rfl hpart hmore
      rcases extractLoop_cutOff records _ (fromBuffer_at hsize) hready hcut hpart hmore
        (Nat.lt_succ_self _) with ⟨effects', error', hloop, hprefix⟩
      rw [hrun, hloop] at hout
      cases hout
      exact ⟨by simp, hprefix⟩
  -- nothing happens when the location is too long
  · rcases extract_refused target stack buf hfits with ⟨error, hrun⟩
    exact ⟨_, hrun, ⟨[], buf, rfl, rfl⟩, fun _ _ _ _ _ _ _ => ⟨by simp, List.nil_prefix⟩⟩

/-- A buffer that ends in the size of a file: the file is emptied. -/
theorem extract_endsInSize (target : Target) (stack : Fin pathMax → UInt8) (records : List Record)
    (hrecords : ∀ r ∈ records, r.FitsIn location) {name : Name} (hname : name.FitsIn location)
    {tail : Bytes} (hshort : tail.length < 4)
    (hsize : (records.flatMap Record.encode ++ (toLE 4 200 ++ (name.encode ++ tail))).length ≤
      target.ptrdiffMax) :
    extractArchiveFromBuffer target stack location
        (records.flatMap Record.encode ++ (toLE 4 200 ++ (name.encode ++ tail))) =
      .ok (records.filterMap (Record.effect location) ++ [.writeFile (name.path location) []],
        some "invalid nxarchive command") := by
  have hfits : location.length + 2 ≤ pathMax := by
    calc
      location.length + 2 ≤ location.length + 1 + name.text.length + 1 := by omega
      _ ≤ pathMax := hname
  rcases extract_ready target stack
    (records.flatMap Record.encode ++ (toLE 4 200 ++ (name.encode ++ tail))) hfits with
    ⟨tmpPath, hready, hrun⟩
  -- the records, the file, and the command that finds no integer
  have hlen := records_length_le records
  have hfuel : ∃ fuel, (records.flatMap Record.encode ++
      (toLE 4 200 ++ (name.encode ++ tail))).length / 4 + 1 = records.length + (fuel + 2) := by
    refine ⟨(records.flatMap Record.encode ++
      (toLE 4 200 ++ (name.encode ++ tail))).length / 4 - records.length - 1, ?_⟩
    simp only [List.length_append, toLE_length, Name.encode]
    omega
  rcases hfuel with ⟨fuel, hfuel⟩
  rcases extractLoop_records records hrecords (fromBuffer_at hsize) hready (fuel + 2) with
    ⟨self₁, tmpPath₁, h₁, hready₁, hloop⟩
  rcases command_cutOff h₁ hshort hready₁ hname with ⟨self₂, tmpPath₂, hcommand, h₂, _, _⟩
  rw [hrun, hfuel, hloop, extractLoop_next hcommand,
    extractLoop_finished (command_short h₂ hshort _ _)]
  rfl

/-- Fewer than four bytes are the beginning of an integer. -/
theorem exists_toLE_of_short {tail : Bytes} (hshort : tail.length < 4) :
    ∃ n more, n < 2 ^ 32 ∧ more ≠ [] ∧ toLE 4 n = tail ++ more := by
  have hlen : (tail ++ List.replicate (4 - tail.length) (0 : UInt8)).length = 4 := by
    rw [List.length_append, List.length_replicate]
    exact Nat.add_sub_cancel' (Nat.le_of_lt hshort)
  refine ⟨ofLE (tail ++ List.replicate (4 - tail.length) 0),
    List.replicate (4 - tail.length) 0, ?_, ?_, ?_⟩
  · have hlt := ofLE_lt (tail ++ List.replicate (4 - tail.length) (0 : UInt8))
    rwa [hlen] at hlt
  · intro hnil
    have hzero := congrArg List.length hnil
    rw [List.length_replicate] at hzero
    exact absurd hzero (Nat.sub_ne_zero_of_lt hshort)
  · have hback := toLE_ofLE (tail ++ List.replicate (4 - tail.length) (0 : UInt8))
    rwa [hlen] at hback

theorem not_intact_of_endsInSize {records : List Record} {name : Name} {tail : Bytes}
    (hshort : tail.length < 4)
    (hbuf : buf = records.flatMap Record.encode ++ (toLE 4 200 ++ (name.encode ++ tail)))
    {error : Option String} :
    ¬ Intact location buf
      (records.filterMap (Record.effect location) ++ [.writeFile (name.path location) []],
        error) := by
  intro hintact
  rcases exists_toLE_of_short hshort with ⟨n, more, hn, hmore, hword⟩
  -- the bytes that are there are the beginning of a file record
  have hpart : (toLE 4 200 ++ (name.encode ++ tail)) ++ (more ++ List.replicate n 0) =
      (Record.file name ⟨List.replicate n 0, by rwa [List.length_replicate]⟩).encode := by
    simp only [Record.encode, List.length_replicate, hword, List.append_assoc]
  have hmore' : more ++ List.replicate n (0 : UInt8) ≠ [] := by simp [hmore]
  have hprefix := (hintact.cutOff records _ _ _ hbuf hpart hmore').2.length_le
  simp only [List.length_append, List.length_singleton] at hprefix
  exact Nat.not_succ_le_self _ hprefix

/-- Every write comes from a complete record, and a record that is cut off is an error without an
effect, exactly for the buffers that do not end in the size of a file. -/
theorem extract_intact_iff (target : Target) (stack : Fin pathMax → UInt8) (location : CString)
    (buf : Bytes) (hsize : buf.length ≤ target.ptrdiffMax) :
    (∃ out, extractArchiveFromBuffer target stack location buf = .ok out ∧
      Intact location buf out) ↔ ¬ EndsInSize location buf := by
  constructor
  · rintro ⟨out, hout, hintact⟩ ⟨records, name, tail, hrecords, hname, hshort, rfl⟩
    rw [extract_endsInSize target stack records hrecords hname hshort hsize] at hout
    cases hout
    exact not_intact_of_endsInSize hshort rfl hintact
  · exact intact_of_not_endsInSize target stack hsize

theorem EndsInSize.length_ge (h : EndsInSize location buf) : 9 ≤ buf.length := by
  rcases h with ⟨records, name, tail, _, _, _, rfl⟩
  have hpos := name.length_pos
  simp only [List.length_append, toLE_length, Name.encode]
  omega

/-- A file record that is cut off behind the size of its name. -/
theorem extract_intact_name :
    ∃ out, extractArchiveFromBuffer .aarch64 (fun _ => 0xff) ⟨[0x64], by decide⟩
        (toLE 4 200 ++ toLE 4 2) = .ok out ∧
      Intact ⟨[0x64], by decide⟩ (toLE 4 200 ++ toLE 4 2) out :=
  (extract_intact_iff .aarch64 (fun _ => 0xff) ⟨[0x64], by decide⟩ (toLE 4 200 ++ toLE 4 2)
    (by decide)).mpr (fun h => absurd h.length_ge (by decide))

/-- A file record that is cut off behind its name: the file is written, with nothing in it. -/
theorem extract_not_intact :
    let location : CString := ⟨[0x64], by decide⟩
    let a : Name := ⟨[0x61, 0], ⟨[0x61], rfl⟩, by decide⟩
    let buf : Bytes := toLE 4 200 ++ a.encode
    extractArchiveFromBuffer .aarch64 (fun _ => 0xff) location buf =
        .ok ([.writeFile (a.path location) []], some "invalid nxarchive command") ∧
      ¬ ∃ out, extractArchiveFromBuffer .aarch64 (fun _ => 0xff) location buf = .ok out ∧
        Intact location buf out := by
  intro location a buf
  have hrun : extractArchiveFromBuffer .aarch64 (fun _ => 0xff) location buf =
      .ok ([.writeFile (a.path location) []], some "invalid nxarchive command") := by
    have hname : a.FitsIn location := by
      simp only [Name.FitsIn]
      decide
    have h := extract_endsInSize .aarch64 (fun _ => 0xff) [] (by simp) hname
      (show ([] : Bytes).length < 4 by decide) (by decide)
    simpa using h
  refine ⟨hrun, ?_⟩
  rintro ⟨out, hout, hintact⟩
  rw [hrun] at hout
  cases hout
  have hbuf : buf = ([] : List Record).flatMap Record.encode ++ (toLE 4 200 ++ (a.encode ++ [])) := by
    simp [buf]
  exact not_intact_of_endsInSize (by decide) hbuf hintact

end NxArchive
end KnShim
