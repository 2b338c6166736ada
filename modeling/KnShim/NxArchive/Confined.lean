import KnShim.Lib.LexicalPath
import KnShim.NxArchive.Grammar

/-!
# Confined — where the paths of an extraction lead

`NXExtractArchive` puts a name behind the location and a slash and does not look at what is in it.
`Reached` says which names of an archive take effect, and `extract_confined_iff` which of them keep
the extraction below its location: those that `Stays` allows.
-/

namespace KnShim
namespace NxArchive

open Lib LexicalPath

/-- The path that an effect is about. -/
def Effect.path : Effect → CString
  | .writeFile path _ => path
  | .makeDirectory path => path

/-- The next record gives `name` to a file or a directory; for a file its size may be cut off. -/
inductive Names (name : Name) : Bytes → Prop
  | file (content : Content) (tail : Bytes) : Names name ((Record.file name content).encode ++ tail)
  | directory (tail : Bytes) : Names name ((Record.directory name).encode ++ tail)
  | cutOff (tail : Bytes) (short : tail.length < 4) :
      Names name (toLE 4 200 ++ (name.encode ++ tail))

/-- After records whose paths fit, the archive gives `name` to something, and its path fits. -/
def Reached (location : CString) (buf : Bytes) (name : Name) : Prop :=
  name.FitsIn location ∧ ∃ (records : List Record) (rest : Bytes),
    (∀ r ∈ records, r.FitsIn location) ∧ buf = records.flatMap Record.encode ++ rest ∧
      Names name rest

variable {target : Target} {self : Extractor} {location : CString} {tmpPath rest : Bytes}

theorem Reached.cons {r : Record} {name : Name} (hr : r.FitsIn location)
    (h : Reached location rest name) : Reached location (r.encode ++ rest) name := by
  rcases h with ⟨hfits, records, rest', hrecords, rfl, hnames⟩
  refine ⟨hfits, r :: records, rest', ?_, ?_, hnames⟩
  · intro r' hr'
    rcases List.mem_cons.mp hr' with rfl | hr'
    · exact hr
    · exact hrecords r' hr'
  · rw [List.flatMap_cons, List.append_assoc]

/-- A name that takes effect right away. -/
theorem Names.reached {name : Name} (h : Names name rest) (hfits : name.FitsIn location) :
    Reached location rest name :=
  ⟨hfits, [], rest, by simp, rfl, h⟩

theorem Names.length_pos {name : Name} (h : Names name rest) : 0 < rest.length := by
  cases h with
  | file content tail =>
      have hlen := (Record.file name content).encode_length
      rw [List.length_append]
      omega
  | directory tail =>
      have hlen := (Record.directory name).encode_length
      rw [List.length_append]
      omega
  | cutOff tail short =>
      rw [List.length_append, toLE_length]
      omega

/-- Every effect is that of a name that is reached. -/
theorem LoopDone.reached {effects : List Effect} {error : Option String}
    (h : LoopDone location rest effects error) :
    ∀ e ∈ effects, ∃ name, Reached location rest name ∧ e.path = name.path location := by
  induction h with
  | finish tail => simp
  | failed rest error => simp
  | cutOff name tail fits short =>
      intro e he
      obtain rfl := List.mem_singleton.mp he
      exact ⟨name, (Names.cutOff tail short).reached fits, rfl⟩
  | record r tail fits _ ih =>
      intro e he
      -- the effect of this record, or of one behind it
      rcases List.mem_append.mp he with he | he
      · rw [Option.mem_toList] at he
        cases r with
        | start => cases he
        | file name content =>
            cases he
            exact ⟨name, (Names.file content tail).reached fits, rfl⟩
        | directory name =>
            cases he
            exact ⟨name, (Names.directory tail).reached fits, rfl⟩
      · rcases ih e he with ⟨name, hreached, hpath⟩
        exact ⟨name, hreached.cons fits, hpath⟩

/-- In front of a name that takes effect, a command uses its path. -/
theorem Names.command {name : Name} (hnames : Names name rest) (hfits : name.FitsIn location)
    (h : self.At target rest) (hready : Ready location tmpPath) :
    ∃ self' tmpPath' e, command target location.length self tmpPath =
      .ok (.next self' tmpPath' (some e)) ∧ e.path = name.path location := by
  cases hnames with
  | file content tail =>
      rcases command_record h hready hfits with ⟨self', tmpPath', hrun, _⟩
      exact ⟨self', tmpPath', _, hrun, rfl⟩
  | directory tail =>
      rcases command_record h hready hfits with ⟨self', tmpPath', hrun, _⟩
      exact ⟨self', tmpPath', _, hrun, rfl⟩
  | cutOff tail short =>
      rcases command_cutOff h short hready hfits with ⟨self', tmpPath', hrun, _⟩
      exact ⟨self', tmpPath', _, hrun, rfl⟩

/-- Every name that is reached takes effect. -/
theorem Reached.effect {name : Name} (hreached : Reached location rest name)
    (h : self.At target rest) (hready : Ready location tmpPath) {effects : List Effect}
    {error : Option String}
    (hrun : extractLoop target location.length (rest.length / 4 + 1) self tmpPath =
      .ok (effects, error)) : ∃ e ∈ effects, e.path = name.path location := by
  rcases hreached with ⟨hfits, records, rest', hrecords, rfl, hnames⟩
  -- the fuel is enough for the records and the command that uses the name
  have hlen := records_length_le records
  rcases extractLoop_records records hrecords h hready
    ((records.flatMap Record.encode ++ rest').length / 4 - records.length + 1) with
    ⟨self', tmpPath', hat, hready', hloop⟩
  have hfuel : (records.flatMap Record.encode ++ rest').length / 4 + 1 =
      records.length + ((records.flatMap Record.encode ++ rest').length / 4 - records.length + 1) := by
    rw [List.length_append]
    omega
  -- the records before it are extracted, then the name is used
  rcases hnames.command hfits hat hready' with ⟨self'', tmpPath'', e, hcommand, hpath⟩
  rw [hfuel, hloop, extractLoop_next hcommand] at hrun
  rcases Fallible.bind_eq_ok.mp hrun with ⟨⟨effects₁, error₁⟩, hr, hrun⟩
  rcases Fallible.bind_eq_ok.mp hr with ⟨⟨effects₂, error₂⟩, _, hr⟩
  cases hr
  cases hrun
  exact ⟨e, by simp, hpath⟩

/-- The paths that take effect are those of the names that are reached. -/
theorem extract_paths {target : Target} {stack : Fin pathMax → UInt8} {location : CString}
    {buf : Bytes} (hsize : buf.length ≤ target.ptrdiffMax) {effects : List Effect}
    {error : Option String}
    (hrun : extractArchiveFromBuffer target stack location buf = .ok (effects, error))
    (path : CString) :
    (∃ e ∈ effects, e.path = path) ↔
      ∃ name, Reached location buf name ∧ path = name.path location := by
  by_cases hfits : location.length + 2 ≤ pathMax
  · rcases extract_ready target stack buf hfits with
      ⟨tmpPath, hready, hloop⟩
    rw [hloop] at hrun
    constructor
    · rintro ⟨e, he, rfl⟩
      exact (extractLoop_done _ (fromBuffer_at hsize) hready hrun).reached e he
    · rintro ⟨name, hreached, rfl⟩
      exact hreached.effect (fromBuffer_at hsize) hready hrun
  -- a location that does not fit: nothing is written, and no name fits either
  · rcases extract_refused target stack buf hfits with
      ⟨error', hrefused⟩
    rw [hrefused] at hrun
    cases hrun
    refine iff_of_false (by simp) ?_
    rintro ⟨name, hreached, _⟩
    refine hfits ?_
    have hname := hreached.1
    simp only [Name.FitsIn] at hname
    omega

/-- The path of a name lies below the location exactly when the name stays there. -/
theorem below_path_iff (location : CString) (name : Name) :
    Below location.bytes (name.path location).bytes ↔
      location.bytes ≠ [] ∧ Stays location.bytes (components name.text.bytes) := by
  have hpath : (name.path location).bytes = location.bytes ++ separator :: name.text.bytes := by
    simp [Name.path, slash, separator]
  rw [hpath]
  by_cases hloc : location.bytes = []
  · -- the path of an empty location is absolute, and the location is not
    refine iff_of_false ?_ (fun h => h.1 hloc)
    rintro ⟨habs, _⟩
    rw [hloc] at habs
    simp only [resolve, Resolved.descend_absolute] at habs
    cases habs
  · rw [below_append_iff hloc, and_iff_right hloc]

/-- Every path that is written or created lies below the location exactly when every name that is
reached stays there. -/
theorem extract_confined_iff (target : Target) (stack : Fin pathMax → UInt8) (location : CString)
    (buf : Bytes) (hsize : buf.length ≤ target.ptrdiffMax) :
    (∃ effects error, extractArchiveFromBuffer target stack location buf = .ok (effects, error) ∧
      ∀ e ∈ effects, Below location.bytes e.path.bytes) ↔
    ∀ name, Reached location buf name →
      location.bytes ≠ [] ∧ Stays location.bytes (components name.text.bytes) := by
  rcases extract_total target stack location hsize with ⟨effects, error, hrun⟩
  constructor
  -- a name that is reached has its path among the effects
  · rintro ⟨effects', error', hrun', hbelow⟩ name hreached
    rw [hrun] at hrun'
    cases hrun'
    rcases (extract_paths hsize hrun (name.path location)).mpr ⟨name, hreached, rfl⟩ with
      ⟨e, he, hpath⟩
    have hb := hbelow e he
    rw [hpath] at hb
    exact (below_path_iff location name).mp hb
  · intro hstays
    refine ⟨effects, error, hrun, fun e he => ?_⟩
    -- and every effect has the path of such a name
    rcases (extract_paths hsize hrun e.path).mp ⟨e, he, rfl⟩ with ⟨name, hreached, hpath⟩
    rw [hpath]
    exact (below_path_iff location name).mpr (hstays name hreached)

/-- In a complete archive whose paths fit, the names that are reached are those of the records. -/
theorem Reached.of_records (target : Target) {location : CString} {records : List Record}
    {tail : Bytes} {name : Name}
    (hreached : Reached location (records.flatMap Record.encode ++ (toLE 4 300 ++ tail)) name)
    (hfits : location.length + 2 ≤ pathMax) (hrecords : ∀ r ∈ records, r.FitsIn location)
    (hsize : (records.flatMap Record.encode ++ (toLE 4 300 ++ tail)).length ≤ target.ptrdiffMax) :
    ∃ e ∈ records.filterMap (Record.effect location),
      e.path.bytes = location.bytes ++ separator :: name.text.bytes := by
  have hrun : extractArchiveFromBuffer target (fun _ => 0) location
      (records.flatMap Record.encode ++ (toLE 4 300 ++ tail)) = _ :=
    extract_records hfits records hrecords tail hsize
  rcases (extract_paths hsize hrun (name.path location)).mpr ⟨name, hreached, rfl⟩ with
    ⟨e, he, hpath⟩
  refine ⟨e, he, ?_⟩
  rw [hpath]
  simp [Name.path, slash, separator]

/-- Extracted to `d`, the files `a/../b` and `../d/c` climb and come back. -/
theorem extract_confined_climbing :
    let location : CString := ⟨[0x64], by decide⟩
    let a : Name := ⟨[0x61, 0], ⟨[0x61], rfl⟩, by decide⟩
    let b : Name := ⟨[0x61, 0x2f, 0x2e, 0x2e, 0x2f, 0x62, 0],
      ⟨[0x61, 0x2f, 0x2e, 0x2e, 0x2f, 0x62], rfl⟩, by decide⟩
    let c : Name := ⟨[0x2e, 0x2e, 0x2f, 0x64, 0x2f, 0x63, 0],
      ⟨[0x2e, 0x2e, 0x2f, 0x64, 0x2f, 0x63], rfl⟩, by decide⟩
    let records : List Record :=
      [.start, .directory a, .file b ⟨[1, 2, 3], by decide⟩, .file c ⟨[4], by decide⟩]
    ∃ effects error, extractArchiveFromBuffer .armv7 (fun _ => 0) location
        (records.flatMap Record.encode ++ (toLE 4 300 ++ [])) = .ok (effects, error) ∧
      ∀ e ∈ effects, Below location.bytes e.path.bytes := by
  intro location a b c records
  refine (extract_confined_iff .armv7 (fun _ => 0) location _ (by decide)).mpr ?_
  intro name hreached
  have hfits : ∀ r ∈ records, r.FitsIn location := by
    simp [records, Record.FitsIn, Name.FitsIn]
    decide
  rcases hreached.of_records .armv7 (by decide) hfits (by decide) with ⟨e, he, hpath⟩
  refine ⟨by decide, ?_⟩
  rw [← below_append_iff (by decide), ← hpath]
  have hpaths : ∀ e ∈ records.filterMap (Record.effect location),
      ∃ more ≠ [], (resolve e.path.bytes) = ⟨false, 0, [[0x64]] ++ more⟩ := by
    intro e he
    simp only [records, List.filterMap_cons, Record.effect, List.filterMap_nil, List.mem_cons,
      List.not_mem_nil, or_false] at he
    rcases he with rfl | rfl | rfl
    · exact ⟨[[0x61]], by simp, by decide⟩
    · exact ⟨[[0x62]], by simp, by decide⟩
    · exact ⟨[[0x63]], by simp, by decide⟩
  rcases hpaths e he with ⟨more, hmore, hresolved⟩
  have hdir : resolve location.bytes = ⟨false, 0, [[0x64]]⟩ := by decide
  rw [Below, hresolved, hdir]
  exact ⟨rfl, rfl, more, hmore, rfl⟩

/-- Extracted to `d`, a file with the name `../x` is written next to `d`. -/
theorem extract_not_confined :
    let location : CString := ⟨[0x64], by decide⟩
    let name : Name := ⟨[0x2e, 0x2e, 0x2f, 0x78, 0], ⟨[0x2e, 0x2e, 0x2f, 0x78], rfl⟩, by decide⟩
    extractArchiveFromBuffer .aarch64 (fun _ => 0) location
        ((Record.file name ⟨[0x21], by decide⟩).encode ++ toLE 4 300) =
      .ok ([.writeFile (name.path location) [0x21]], none) ∧
    ¬ Below location.bytes (name.path location).bytes := by
  constructor
  · exact extract_records (by decide)
      [.file ⟨[0x2e, 0x2e, 0x2f, 0x78, 0], ⟨[0x2e, 0x2e, 0x2f, 0x78], rfl⟩, by decide⟩
        ⟨[0x21], by decide⟩] (by simp [Record.FitsIn, Name.FitsIn]; decide) [] (by decide)
  -- `d/../x` resolves to `x`, which does not start with `d`
  · rintro ⟨_, _, more, _, hnames⟩
    have hx : (resolve [0x64, 0x2f, 0x2e, 0x2e, 0x2f, 0x78]).names = [[0x78]] := by decide
    have hd : (resolve [0x64]).names = [[0x64]] := by decide
    have hpath : ([[0x78]] : List Bytes) = [[0x64]] ++ more :=
      hx.symm.trans (hnames.trans (by rw [← hd]))
    simp at hpath

end NxArchive
end KnShim
