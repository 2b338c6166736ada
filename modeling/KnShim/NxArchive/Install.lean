import KnShim.Lib.Stdio
import KnShim.NxArchive.Truncation

/-!
# Install — what a success of `NXExtractArchive` says about the files

`installArchive` runs the loop of `NXExtractArchive` against a file system whose calls may fail in
any pattern.  The loop does not look at how its calls end, so it does what `extractArchive` lists
(`installArchive_eq`), and its result says nothing about the files.

`Honest` is what the result should say: after a success every file that the archive names holds the
bytes of the last record that names it.  `install_honest_iff` gives the fates for which it does: in a
complete archive each of these last writes lands.
-/

namespace KnShim
namespace NxArchive

open Lib

/-! ## Extraction into files -/

/-- `NXWriteBufToFile`; `denote` is the file that a path leads to. -/
def writeBufToFile (denote : CString → Path) (filename : CString) (buf : Bytes) : Proc Unit := do
  match ← Proc.fopenWrite (denote filename) with
  | none => return ()
  | some f => do
      -- a short count is only logged, and what `fclose` returns is not looked at
      let (_, f) ← Proc.fwrite buf 1 buf.length f
      let _ ← Proc.fclose f
      return ()

/-- One effect; the result of `mkdir` is not looked at. -/
def perform (denote : CString → Path) : Effect → Proc Unit
  | .writeFile path data => writeBufToFile denote path data
  | .makeDirectory _ => do
      let _ ← Proc.mkdir
      return ()

def performAll (denote : CString → Path) : List Effect → Proc Unit
  | [] => return ()
  | effect :: effects => do
      perform denote effect
      performAll denote effects

/-- The loop of `NXExtractArchive`, with what it does to the files; it returns the error. -/
def installLoop (target : Target) (denote : CString → Path) (locationSize : Nat) :
    Nat → Extractor → Bytes → Proc (Option String)
  | 0, _, _ => Proc.lift (.error .nonTermination)
  | fuel + 1, self, tmpPath => do
      match ← Proc.lift (command target locationSize self tmpPath) with
      | .finished error => return error
      | .next self tmpPath effect => do
          performAll denote effect.toList
          installLoop target denote locationSize fuel self tmpPath

/-- `NXExtractArchiveFromBuffer`, with what it does to the files. -/
def installArchive (target : Target) (stack : Fin pathMax → UInt8) (denote : CString → Path)
    (location : CString) (buf : Bytes) : Proc (Option String) := do
  let (tmpPath, failed) ← Proc.lift (strcpyS (List.ofFn stack) pathMax location)
  if failed then return some "strcpy_s failed for location"
  else do
    let (tmpPath, failed) ← Proc.lift (strcatS tmpPath pathMax slash)
    if failed then return some "strcpy_s failed for slash"
    else installLoop target denote location.length (buf.length / 4 + 1) (fromBuffer buf) tmpPath

variable {target : Target} {stack : Fin pathMax → UInt8} {denote : CString → Path}
  {location : CString} {buf tmpPath : Bytes} {self : Extractor}

theorem performAll_append (xs ys : List Effect) :
    performAll denote (xs ++ ys) = performAll denote xs >>= fun _ => performAll denote ys := by
  induction xs with
  | nil => simp [performAll]
  | cons x xs ih => simp [performAll, ih]

theorem lift_ok_bind {α β : Type} (a : α) (f : α → Proc β) :
    (Proc.lift (.ok a) >>= f) = f a := by
  funext script w
  exact Proc.bind_ok rfl

theorem installLoop_eq (fuel : Nat) {effects : List Effect} {error : Option String}
    {locationSize : Nat}
    (h : extractLoop target locationSize fuel self tmpPath = .ok (effects, error)) :
    installLoop target denote locationSize fuel self tmpPath =
      performAll denote effects >>= fun _ => pure error := by
  induction fuel generalizing self tmpPath effects with
  | zero => cases h
  | succ fuel ih =>
      rcases Fallible.bind_eq_ok.mp h with ⟨flow, hflow, h⟩
      rw [installLoop, hflow, lift_ok_bind]
      cases flow with
      | finished error' =>
          cases h
          rfl
      | next self' tmpPath' effect =>
          rcases Fallible.bind_eq_ok.mp h with ⟨⟨effects', error'⟩, hrest, h⟩
          cases h
          rw [performAll_append, bind_assoc]
          exact bind_congr (fun _ => ih hrest)

/-- The files see the effects that `extractArchive` lists, in order. -/
theorem installArchive_eq {effects : List Effect} {error : Option String}
    (h : extractArchiveFromBuffer target stack location buf = .ok (effects, error)) :
    installArchive target stack denote location buf =
      performAll denote effects >>= fun _ => pure error := by
  rcases Fallible.bind_eq_ok.mp h with ⟨⟨tmpPath, failed⟩, hcopy, h⟩
  rw [installArchive, hcopy, lift_ok_bind]
  cases failed with
  | true =>
      cases h
      rfl
  | false =>
      rcases Fallible.bind_eq_ok.mp h with ⟨⟨tmpPath, failed⟩, hcat, h⟩
      simp only [hcat, lift_ok_bind]
      cases failed with
      | true =>
          cases h
          rfl
      | false => exact installLoop_eq _ h

/-! ## What a success should say -/

/-- No later file record leads to the file at `p`. -/
def LastFor (denote : CString → Path) (location : CString) (p : Path) (later : List Record) :
    Prop :=
  ∀ name content, Record.file name content ∈ later → denote (name.path location) ≠ p

/-- Every file that the records name holds the bytes of the last record that names it. -/
def Installed (denote : CString → Path) (location : CString) (records : List Record)
    (w : World) : Prop :=
  ∀ pre name content later, records = pre ++ Record.file name content :: later →
    LastFor denote location (denote (name.path location)) later →
    w.files (denote (name.path location)) = some content.bytes

/-- A `NULL` is returned only for an archive whose files are installed. -/
def Honest (denote : CString → Path) (location : CString) (buf : Bytes) (error : Option String)
    (w : World) : Prop :=
  error = none → ∃ (records : List Record) (tail : Bytes),
    buf = records.flatMap Record.encode ++ (toLE 4 300 ++ tail) ∧
      Installed denote location records w

/-- A file record lands: the file is opened and all of the data gets through `fwrite` and the flush,
or it is not opened but holds the data already. -/
def Lands (script : Script) (p : Path) (data : Bytes) (w : World) : Prop :=
  match script w.clock with
  | .done => (script (w.clock + 2)).flushes ((script (w.clock + 1)).accepts data) = data
  | _ => w.files p = some data

/-- The last record for each file lands, in the state that the records before it leave. -/
def LastLand (denote : CString → Path) (location : CString) (script : Script) :
    List Record → World → Prop
  | [], _ => True
  | .start :: records, w => LastLand denote location script records w
  | .directory _ :: records, w => LastLand denote location script records (w.later 1)
  | .file name content :: records, w =>
      (LastFor denote location (denote (name.path location)) records →
        Lands script (denote (name.path location)) content.bytes w) ∧
      LastLand denote location script records
        (writeBufToFile denote (name.path location) content.bytes script w).2

variable {script : Script} {w : World}

/-- Writing a file returns, decides about this file only, and leaves the data there when it
lands. -/
theorem writeBufToFile_lands (hscript : ∀ n, ¬ (script n).Deadly) (filename : CString)
    (data : Bytes) :
    ∃ w', writeBufToFile denote filename data script w = (.ok (), w') ∧
      (w'.files (denote filename) = some data ↔ Lands script (denote filename) data w) ∧
      ∀ p, p ≠ denote filename → w'.files p = w.files p := by
  cases hfate : script w.clock with
  | done =>
      have hwrite := Proc.fwrite_bytes data ⟨denote filename, []⟩
        (hscript ((w.write (denote filename) []).later 1).clock)
      rcases Proc.fclose_flushes
        ⟨denote filename, [] ++ (script (w.clock + 1)).accepts data⟩
        (hscript (((w.write (denote filename) []).later 1).later 1).clock) with ⟨r, hclose⟩
      refine ⟨_, (Proc.bind_ok (Proc.fopenWrite_done _ hfate)).trans
        ((Proc.bind_ok hwrite).trans ((Proc.bind_ok hclose).trans rfl)), ?_, ?_⟩
      · simp only [Lands, hfate]
        simp [World.write, World.later]
      · intro p hp
        simp [World.write, World.later, hp]
  | fails kept =>
      refine ⟨w.later 1, (Proc.bind_ok (Proc.fopenWrite_fails _ hfate)).trans rfl, ?_,
        fun _ _ => rfl⟩
      simp only [Lands, hfate]
      rfl
  | dies kept =>
      have hdeadly := hscript w.clock
      rw [hfate] at hdeadly
      exact absurd trivial hdeadly

/-- No failure stops the effects. -/
theorem performAll_returns (hscript : ∀ n, ¬ (script n).Deadly) (effects : List Effect)
    (w : World) : ∃ w', performAll denote effects script w = (.ok (), w') := by
  induction effects generalizing w with
  | nil => exact ⟨w, rfl⟩
  | cons effect effects ih =>
      have hfirst : ∃ w₁, perform denote effect script w = (.ok (), w₁) := by
        cases effect with
        | writeFile path data =>
            rcases writeBufToFile_lands hscript path data with ⟨w₁, hwrite, _⟩
            exact ⟨w₁, hwrite⟩
        | makeDirectory path =>
            rcases Proc.mkdir_apply (hscript w.clock) with ⟨r, hmkdir⟩
            exact ⟨w.later 1, (Proc.bind_ok hmkdir).trans rfl⟩
      rcases hfirst with ⟨w₁, hfirst⟩
      rcases ih w₁ with ⟨w', hrest⟩
      exact ⟨w', (Proc.bind_ok hfirst).trans hrest⟩

/-- The records are performed to the end, and files that they do not name are left alone. -/
theorem performAll_records (hscript : ∀ n, ¬ (script n).Deadly) (records : List Record)
    (w : World) :
    ∃ w', performAll denote (records.filterMap (Record.effect location)) script w = (.ok (), w') ∧
      ∀ p, LastFor denote location p records → w'.files p = w.files p := by
  induction records generalizing w with
  | nil => exact ⟨w, rfl, fun _ _ => rfl⟩
  | cons r records ih =>
      have htail : ∀ p, LastFor denote location p (r :: records) →
          LastFor denote location p records :=
        fun p hp name content hmem => hp name content (List.mem_cons_of_mem _ hmem)
      cases r with
      | start =>
          rcases ih w with ⟨w', hrun, hframe⟩
          exact ⟨w', hrun, fun p hp => hframe p (htail p hp)⟩
      | file name content =>
          rcases writeBufToFile_lands hscript (name.path location) content.bytes with
            ⟨w₁, hwrite, _, hframe₁⟩
          rcases ih w₁ with ⟨w', hrun, hframe⟩
          refine ⟨w', (Proc.bind_ok hwrite).trans hrun, fun p hp => ?_⟩
          have hne : p ≠ denote (name.path location) :=
            (hp name content List.mem_cons_self).symm
          exact (hframe p (htail p hp)).trans (hframe₁ p hne)
      | directory name =>
          rcases Proc.mkdir_apply (hscript w.clock) with ⟨r, hmkdir⟩
          rcases ih (w.later 1) with ⟨w', hrun, hframe⟩
          have hfirst : perform denote (.makeDirectory (name.path location)) script w =
              (.ok (), w.later 1) := (Proc.bind_ok hmkdir).trans rfl
          exact ⟨w', (Proc.bind_ok hfirst).trans hrun, fun p hp => hframe p (htail p hp)⟩

/-- In the state behind the first record, the rest of the records is installed or not. -/
theorem installed_cons {r : Record} {records : List Record} :
    Installed denote location (r :: records) w ↔
      (∀ name content, r = .file name content →
        LastFor denote location (denote (name.path location)) records →
        w.files (denote (name.path location)) = some content.bytes) ∧
      Installed denote location records w := by
  constructor
  · intro h
    refine ⟨fun name content hr => h [] name content records (by rw [hr]; rfl), ?_⟩
    intro pre name content later hrecords
    exact h (r :: pre) name content later (by rw [hrecords]; rfl)
  · rintro ⟨hfirst, hrest⟩ pre name content later hrecords
    -- the record is the first one, or among the rest
    cases pre with
    | nil =>
        cases hrecords
        exact hfirst name content rfl
    | cons r' pre =>
        cases hrecords
        exact hrest pre name content later rfl

/-- The files are installed exactly when the last record for each of them lands. -/
theorem installed_iff (hscript : ∀ n, ¬ (script n).Deadly) (records : List Record) (w : World) :
    Installed denote location records
        (performAll denote (records.filterMap (Record.effect location)) script w).2 ↔
      LastLand denote location script records w := by
  -- induction on the records; what the first one has left is only changed by the others
  induction records generalizing w with
  | nil =>
      refine iff_of_true ?_ trivial
      intro pre name content later hrecords
      cases pre <;> cases hrecords
  | cons r records ih =>
      rw [installed_cons]
      cases r with
      | start =>
          refine Iff.trans ?_ (ih w)
          refine and_iff_right (fun name content hr => ?_)
          cases hr
      | directory name =>
          rcases Proc.mkdir_apply (hscript w.clock) with ⟨r, hmkdir⟩
          have hfirst : perform denote (.makeDirectory (name.path location)) script w =
              (.ok (), w.later 1) := (Proc.bind_ok hmkdir).trans rfl
          have hrun : performAll denote ((Record.directory name :: records).filterMap
              (Record.effect location)) script w =
              performAll denote (records.filterMap (Record.effect location)) script (w.later 1) :=
            Proc.bind_ok hfirst
          rw [hrun]
          refine Iff.trans ?_ (ih (w.later 1))
          refine and_iff_right (fun name' content hr => ?_)
          cases hr
      | file name content =>
          rcases writeBufToFile_lands hscript (name.path location) content.bytes with
            ⟨w₁, hwrite, hlands, _⟩
          have hrun : performAll denote ((Record.file name content :: records).filterMap
              (Record.effect location)) script w =
              performAll denote (records.filterMap (Record.effect location)) script w₁ :=
            Proc.bind_ok hwrite
          rcases performAll_records hscript records w₁ with ⟨w', hrest, hframe⟩
          have hih := ih w₁
          rw [hrest] at hih
          rw [hrun, hrest, LastLand, hwrite]
          refine and_congr ?_ hih
          constructor
          · intro h hlast
            rw [← hlands, ← hframe _ hlast]
            exact h name content rfl hlast
          · intro h name' content' hr hlast
            cases hr
            rw [hframe _ hlast, hlands]
            exact h hlast

/-! ## Success -/

/-- A complete archive has one reading. -/
theorem records_unique {records records' : List Record} {tail tail' : Bytes}
    (h : records.flatMap Record.encode ++ (toLE 4 300 ++ tail) =
      records'.flatMap Record.encode ++ (toLE 4 300 ++ tail')) : records = records' := by
  induction records generalizing records' with
  | nil =>
      cases records' with
      | nil => rfl
      | cons r' records' =>
          rw [List.flatMap_cons, List.append_assoc] at h
          exact absurd h.symm (r'.encode_append_ne _ _)
  | cons r records ih =>
      rw [List.flatMap_cons, List.append_assoc] at h
      cases records' with
      | nil => exact absurd h (r.encode_append_ne _ _)
      | cons r' records' =>
          rw [List.flatMap_cons, List.append_assoc] at h
          rcases Record.encode_append_inj h with ⟨rfl, hrest⟩
          rw [ih hrest]

/-- Whatever fails but the process itself: the result is honest exactly when, in a complete archive
whose paths fit, the last record for each file lands. -/
theorem install_honest_iff (target : Target) (stack : Fin pathMax → UInt8)
    (denote : CString → Path) (location : CString) (buf : Bytes)
    (hsize : buf.length ≤ target.ptrdiffMax) (script : Script)
    (hscript : ∀ n, ¬ (script n).Deadly) (w : World) :
    (∃ error w', installArchive target stack denote location buf script w = (.ok error, w') ∧
        Honest denote location buf error w') ↔
      ∀ (records : List Record) (tail : Bytes), location.length + 2 ≤ pathMax →
        (∀ r ∈ records, r.FitsIn location) →
        buf = records.flatMap Record.encode ++ (toLE 4 300 ++ tail) →
        LastLand denote location script records w := by
  rcases extract_total target stack location hsize with ⟨effects, error, hrun⟩
  rcases performAll_returns hscript effects w with ⟨w', hperform⟩
  have hinstall : installArchive target stack denote location buf script w = (.ok error, w') := by
    rw [installArchive_eq hrun]
    exact (Proc.bind_ok hperform).trans rfl
  cases error with
  | some error =>
      -- an error promises nothing, and a complete archive would not have led to it
      refine iff_of_true ⟨some error, w', hinstall, fun h => by cases h⟩ ?_
      rintro records tail hfits hrecords rfl
      rw [extract_records hfits records hrecords tail hsize] at hrun
      cases hrun
  | none =>
      rcases records_of_extract hsize hrun with ⟨hfits, records, tail, hrecords, hbuf, rfl⟩
      have hiff : Installed denote location records
          (performAll denote (records.filterMap (Record.effect location)) script w).2 ↔
            LastLand denote location script records w := installed_iff hscript records w
      rw [hperform] at hiff
      constructor
      · rintro ⟨error', w₁, hrun', hhonest⟩ records' tail' _ _ hbuf'
        rw [hinstall] at hrun'
        cases hrun'
        rcases hhonest rfl with ⟨records₁, tail₁, hbuf₁, hinstalled⟩
        obtain rfl : records = records₁ := records_unique (hbuf.symm.trans hbuf₁)
        obtain rfl : records = records' := records_unique (hbuf.symm.trans hbuf')
        exact hiff.mp hinstalled
      · intro hland
        exact ⟨none, w', hinstall,
          fun _ => ⟨records, tail, hbuf, hiff.mpr (hland records tail hfits hrecords hbuf)⟩⟩

/-- Two records for one file.  The first cannot open it, the second can. -/
theorem install_honest_twice :
    let location : CString := ⟨[0x64], by decide⟩
    let a : Name := ⟨[0x61, 0], ⟨[0x61], rfl⟩, by decide⟩
    let records : List Record := [.file a ⟨[1, 2, 3], by decide⟩, .file a ⟨[4], by decide⟩]
    let buf : Bytes := records.flatMap Record.encode ++ (toLE 4 300 ++ [])
    let script : Script := fun n => if n = 0 then .fails 0 else .done
    ∃ error w', installArchive .aarch64 (fun _ => 0xff) CString.bytes location buf script
        ⟨fun _ => none, 0⟩ = (.ok error, w') ∧ Honest CString.bytes location buf error w' := by
  intro location a records buf script
  refine (install_honest_iff .aarch64 (fun _ => 0xff) CString.bytes location buf (by decide) script
    (Fate.not_deadly_once 0 0) ⟨fun _ => none, 0⟩).mpr ?_
  intro records' tail _ _ hbuf
  obtain rfl : records = records' := records_unique hbuf
  -- the first record is not the last one for its file
  refine ⟨fun hlast => absurd rfl (hlast a ⟨[4], by decide⟩ (by simp)), fun _ => ?_, trivial⟩
  rfl

/-- The disk is full when the stream is flushed: the file is left empty, and the extraction
reports a success. -/
theorem install_not_honest :
    let location : CString := ⟨[0x64], by decide⟩
    let a : Name := ⟨[0x61, 0], ⟨[0x61], rfl⟩, by decide⟩
    let records : List Record := [.file a ⟨[1, 2, 3], by decide⟩]
    let buf : Bytes := records.flatMap Record.encode ++ (toLE 4 300 ++ [])
    let script : Script := fun n => if n = 2 then .fails 0 else .done
    ∃ w', installArchive .aarch64 (fun _ => 0xff) CString.bytes location buf script
          ⟨fun _ => none, 0⟩ = (.ok none, w') ∧
        w'.files (a.path location).bytes = some [] ∧
        ¬ Honest CString.bytes location buf none w' := by
  intro location a records buf script
  have hfits : ∀ r ∈ records, r.FitsIn location := by
    simp only [records, List.forall_mem_cons]
    exact ⟨by simp only [Record.FitsIn, Name.FitsIn]; decide, fun r hr => by cases hr⟩
  have hrun : extractArchiveFromBuffer .aarch64 (fun _ => 0xff) location buf =
      .ok (records.filterMap (Record.effect location), none) :=
    extract_records (by decide) records hfits [] (by decide)
  have hfile : ∃ w', installArchive .aarch64 (fun _ => 0xff) CString.bytes location buf script
      ⟨fun _ => none, 0⟩ = (.ok none, w') ∧ w'.files (a.path location).bytes = some [] := by
    rw [installArchive_eq hrun]
    exact ⟨_, rfl, by simp [World.write, World.later]⟩
  rcases hfile with ⟨w', hinstall, hempty⟩
  refine ⟨w', hinstall, hempty, ?_⟩
  intro hhonest
  rcases hhonest rfl with ⟨records', tail, hbuf, hinstalled⟩
  obtain rfl : records = records' := records_unique hbuf
  have hdata := hinstalled [] a ⟨[1, 2, 3], by decide⟩ [] rfl (fun _ _ h => by cases h)
  rw [hempty] at hdata
  cases hdata

end NxArchive
end KnShim
