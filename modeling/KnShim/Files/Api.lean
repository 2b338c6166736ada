import KnShim.Files.RoundTrip
import KnShim.Lib.CrashLogic
import KnShim.Lib.Machine

/-!
# Files.Api — the file functions as one store

The other functions of the file API that work on files, and the machine of these five.  There are
regular files only: `knMakeDir` is left out, and so are runs in which a path leads to a directory,
which `fopen`, `rename` and `remove` treat in their own ways.  Two things are proved of every run:

* `files_allowed` : whatever fails, and wherever the process is killed, each call does what
  `Request.Allows` lists.  So a file holds at any time what it held at first or the beginning of
  something that was written, and files that no call names do not change.
* `files_answers` : when nothing fails, the functions answer as a map from paths to contents.

The first list says what scripts cannot rely on: `true` from `knWriteFile` with a part of the data
in the file, and `""` from `knReadFile` for a file that is not empty.
-/

namespace KnShim
namespace Files

open Lib Lua

/-! ## The functions -/

section Functions

variable (numerals : Numerals) (denote : CString → Path)

/-- `knRenameFile`.  The second path is not counted, but what is not there is no string. -/
def knRenameFile : List Value → Proc (List Value)
  | [] => return []
  | oldPath :: args =>
      match oldPath.toCString numerals, (args.headD .nil).toCString numerals with
      | some oldPath, some newPath => do
          let status ← Proc.renameFile (denote oldPath) (denote newPath)
          return [.boolean (status = 0)]
      | _, _ => return []

/-- `knDeleteFile`. -/
def knDeleteFile : List Value → Proc (List Value)
  | [] => return []
  | path :: _ =>
      match path.toCString numerals with
      | none => return []
      | some path => do
          let status ← Proc.remove (denote path)
          return [.boolean (status = 0)]

/-- `knIsFile`. -/
def knIsFile : List Value → Proc (List Value)
  | [] => return []
  | path :: _ =>
      match path.toCString numerals with
      | none => return []
      | some path => do
          match ← Proc.fopenRead (denote path) with
          | none => return [.boolean false]
          | some _ => do
              let _ ← Proc.fcloseRead
              return [.boolean true]

/-- A call from a script; a path that it names leads to a regular file or to nothing. -/
inductive FileCall where
  | writeFile (args : List Value)
  | readFile (args : List Value)
  | renameFile (args : List Value)
  | deleteFile (args : List Value)
  | isFile (args : List Value)
  deriving DecidableEq

def FileCall.proc (target : Target) : FileCall → Proc (List Value)
  | .writeFile args => knWriteFile numerals denote args
  | .readFile args => knReadFile numerals denote target args
  | .renameFile args => knRenameFile numerals denote args
  | .deleteFile args => knDeleteFile numerals denote args
  | .isFile args => knIsFile numerals denote args

/-- The files under the calls.  A process that is killed answers nothing, and is started again. -/
def fileMachine (target : Target) (script : Script) (w : World) :
    Machine World FileCall (Option (List Value)) where
  init := w
  step := fun w call =>
    match call.proc numerals denote target script w with
    | (.ok results, w') => .ok (w', some results)
    | (.error .killed, w') => .ok (w', none)
    | (.error e, _) => .error e

end Functions

/-! ## What a call may do -/

/-- What a call asks for. -/
inductive Request where
  | write (path : Path) (data : Bytes)
  | read (path : Path)
  | rename (old new : Path)
  | delete (path : Path)
  | isFile (path : Path)

/-- The request that the arguments spell, if they do. -/
def FileCall.request (numerals : Numerals) (denote : CString → Path) : FileCall → Option Request
  | .writeFile (path :: contents :: _) => do
      let path ← path.toCString numerals
      let data ← contents.toLString numerals
      return .write (denote path) data
  | .readFile (path :: _) => (path.toCString numerals).map fun path => .read (denote path)
  | .renameFile (oldPath :: args) => do
      let oldPath ← oldPath.toCString numerals
      let newPath ← (args.headD .nil).toCString numerals
      return .rename (denote oldPath) (denote newPath)
  | .deleteFile (path :: _) => (path.toCString numerals).map fun path => .delete (denote path)
  | .isFile (path :: _) => (path.toCString numerals).map fun path => .isFile (denote path)
  | _ => none

/-- The file at `old` goes to `new`. -/
def moved (f : Files) (old new : Path) (content : Bytes) : Files :=
  Function.update (Function.update f old none) new (some content)

/-- What a request may answer, `none` when the process is killed, and the files it may leave. -/
inductive Request.Allows (longMax : Nat) (f : Files) :
    Request → Option (List Value) → Files → Prop where
  | killed (r : Request) : Allows longMax f r none f
  | notOpened (path : Path) (data : Bytes) : Allows longMax f (.write path data) (some []) f
  -- all was accepted, but the flush is not looked at
  | written {path : Path} {data stored : Bytes} (hstored : stored <+: data) :
      Allows longMax f (.write path data) (some [.boolean true])
        (Function.update f path (some stored))
  | notWritten {path : Path} {data stored : Bytes} (hstored : stored <+: data)
      (hshort : stored ≠ data) :
      Allows longMax f (.write path data) (some [.boolean false])
        (Function.update f path (some stored))
  | cut {path : Path} {data stored : Bytes} (hstored : stored <+: data) :
      Allows longMax f (.write path data) none (Function.update f path (some stored))
  | notFound (path : Path) : Allows longMax f (.read path) (some []) f
  | notRead (path : Path) : Allows longMax f (.read path) (some [.nil]) f
  | read {path : Path} {content : Bytes} (hfile : f path = some content) :
      Allows longMax f (.read path) (some [.string content]) f
  -- the first `fseek` failed, so the size seemed to be 0
  | readNothing {path : Path} {content : Bytes} (hfile : f path = some content) :
      Allows longMax f (.read path) (some [.string []]) f
  -- the size has no `long`
  | readPart {path : Path} {content text : Bytes} (hfile : f path = some content)
      (hlong : longMax < content.length) (htext : text <+: content) :
      Allows longMax f (.read path) (some [.string text]) f
  | renamed {old new : Path} {content : Bytes} (hfile : f old = some content) :
      Allows longMax f (.rename old new) (some [.boolean true]) (moved f old new content)
  | notRenamed (old new : Path) : Allows longMax f (.rename old new) (some [.boolean false]) f
  | deleted {path : Path} {content : Bytes} (hfile : f path = some content) :
      Allows longMax f (.delete path) (some [.boolean true]) (Function.update f path none)
  | notDeleted (path : Path) : Allows longMax f (.delete path) (some [.boolean false]) f
  | isFile {path : Path} {content : Bytes} (hfile : f path = some content) :
      Allows longMax f (.isFile path) (some [.boolean true]) f
  | isNoFile (path : Path) : Allows longMax f (.isFile path) (some [.boolean false]) f

/-- A call does what its request allows, and nothing without one. -/
def FileCall.Allows (numerals : Numerals) (denote : CString → Path) (longMax : Nat) (f : Files)
    (call : FileCall) (answer : Option (List Value)) (f' : Files) : Prop :=
  match call.request numerals denote with
  | some r => r.Allows longMax f answer f'
  | none => answer = some [] ∧ f' = f

/-! ## Each call does what it may -/

variable {target : Target} {numerals : Numerals} {denote : CString → Path}

/-- From the files `f`, the process returns what `r` allows, or dies as `r` allows. -/
def Does (longMax : Nat) (f : Files) (m : Proc (List Value)) (r : Request) : Prop :=
  Proc.Triple (fun f' => f' = f) m (fun results f' => r.Allows longMax f (some results) f')
    (fun f' => r.Allows longMax f none f')

/-- A process that has changed nothing may be killed. -/
theorem killed_unchanged (longMax : Nat) {f : Files} (r : Request) :
    ∀ f', f' = f → r.Allows longMax f none f' := by
  rintro f' rfl
  exact .killed r

/-- What is left to do once the file is open for writing. -/
theorem writeOpened_does (longMax : Nat) (f : Files) (path : Path) (data : Bytes) :
    Proc.Triple (fun f' => f' = Function.update f path (some []))
      (do
        let (written, file) ← Proc.fwrite data 1 data.length ⟨path, []⟩
        let _ ← Proc.fclose file
        return [Value.boolean (written = data.length)])
      (fun results f' => (Request.write path data).Allows longMax f (some results) f')
      (fun f' => (Request.write path data).Allows longMax f none f') := by
  refine (Proc.Triple.fwrite_bytes data ⟨path, []⟩).seq ?_ (fun r => ?_)
  · rintro f' ⟨kept, rfl⟩
    simpa using Request.Allows.cut List.nil_prefix
  · refine Proc.Triple.of_fact (fun hr => ?_)
    rcases hr with ⟨accepted, haccepted, rfl⟩
    refine (Proc.Triple.fclose _).seq ?_ (fun _ => Proc.Triple.pure ?_)
    · rintro f' ⟨kept, rfl⟩
      have hstored : accepted.take kept <+: data := (List.take_prefix kept accepted).trans haccepted
      simpa using Request.Allows.cut hstored
    · rintro f' ⟨kept, rfl⟩
      have hstored : accepted.take kept <+: data := (List.take_prefix kept accepted).trans haccepted
      by_cases hall : accepted.length = data.length
      · simpa [hall] using Request.Allows.written hstored
      · -- what is stored is no longer than what was accepted
        have hshort : accepted.take kept ≠ data := by
          rintro rfl
          have hlength := (List.take_prefix kept accepted).length_le
          exact hall (Nat.le_antisymm haccepted.length_le hlength)
        simpa [hall] using Request.Allows.notWritten hstored hshort

theorem knWriteFile_does (longMax : Nat) (f : Files) {path contents : Value} {name : CString}
    {data : Bytes} (hpath : path.toCString numerals = some name)
    (hdata : contents.toLString numerals = some data) (args : List Value) :
    Does longMax f (knWriteFile numerals denote (path :: contents :: args))
      (.write (denote name) data) := by
  simp only [Does, knWriteFile, hpath, hdata]
  refine (Proc.Triple.fopenWrite _).seq (killed_unchanged longMax _) (fun file => ?_)
  refine Proc.Triple.of_or (Proc.Triple.of_fact ?_) (Proc.Triple.of_fact ?_)
  · rintro rfl
    refine Proc.Triple.pure ?_
    rintro f' rfl
    exact .notOpened _ _
  · rintro rfl
    exact writeOpened_does longMax f (denote name) data

/-- The read of a stream that stands at the beginning, or wherever `fseek` left it. -/
theorem readContents_does {longMax : Nat} {f : Files} {path : Path} {content : Bytes}
    (hfile : f path = some content) {size : Nat} {file : ReadStream}
    (hcontent : file.content = content)
    (hsize : size ≠ 0 → size = content.length ∨ longMax < size)
    (hpos : file.pos = 0 ∨ file.pos = content.length) :
    Does longMax f (readContents size file) (.read path) := by
  have hdies := killed_unchanged longMax (f := f) (.read path)
  rw [Does, readContents]
  by_cases hempty : size = 0
  · rw [if_pos hempty]
    refine Proc.Triple.fcloseRead.seq hdies (fun _ => Proc.Triple.of_fact fun _ =>
      Proc.Triple.pure ?_)
    rintro f' rfl
    exact .readNothing hfile
  · rw [if_neg hempty]
    refine Proc.Triple.malloc.seq hdies (fun granted => Proc.Triple.of_fact fun _ => ?_)
    cases granted with
    | false =>
        refine Proc.Triple.fcloseRead.seq hdies (fun _ => Proc.Triple.of_fact fun _ =>
          Proc.Triple.pure ?_)
        rintro f' rfl
        exact .notFound path
    | true =>
        refine (Proc.Triple.fread size file).seq hdies (fun r => Proc.Triple.of_fact fun hread => ?_)
        refine Proc.Triple.fcloseRead.seq hdies (fun _ => Proc.Triple.of_fact fun _ => ?_)
        refine Proc.Triple.free.seq hdies (fun _ => Proc.Triple.of_fact fun _ =>
          Proc.Triple.pure ?_)
        rintro f' rfl
        by_cases hall : r.1.length = size
        · simp only [if_pos hall]
          subst hcontent
          -- at the end of the file nothing would have been read
          have hbegin : file.pos = 0 := by
            rcases hpos with h | h
            · exact h
            · rw [h, List.drop_length, List.take_nil, List.prefix_nil] at hread
              rw [hread] at hall
              exact absurd hall.symm hempty
          rw [hbegin, List.drop_zero] at hread
          have htext : r.1 <+: file.content := hread.trans (List.take_prefix _ _)
          rcases hsize hempty with h | h
          · rw [htext.eq_of_length (hall.trans h)]
            exact .read hfile
          · exact .readPart hfile (lt_of_lt_of_le (hall ▸ h) htext.length_le) htext
        · simp only [if_neg hall]
          exact .notRead path

/-- What `ftell` returns, as a `size_t`: the position, or, if it is -1, a size no file has. -/
theorem size_of_ftell {r : Int} {pos : Nat} (h : r = pos ∧ pos ≤ target.ptrdiffMax ∨ r = -1) :
    (BitVec.ofInt target.wordBits r).toNat = pos ∨
      target.ptrdiffMax < (BitVec.ofInt target.wordBits r).toNat := by
  rcases h with ⟨rfl, hpos⟩ | rfl
  · left
    have hsize : (List.replicate pos (0 : UInt8)).length ≤ target.ptrdiffMax := by simpa using hpos
    simpa using toNat_ofInt_length hsize
  · right
    cases target <;> decide

theorem knReadFile_does (f : Files) {path : Value} {name : CString}
    (hpath : path.toCString numerals = some name) (args : List Value) :
    Does target.ptrdiffMax f (knReadFile numerals denote target (path :: args))
      (.read (denote name)) := by
  have hdies := killed_unchanged target.ptrdiffMax (f := f) (.read (denote name))
  simp only [Does, knReadFile, hpath]
  refine (Proc.Triple.fopenRead _).seq hdies (fun r => Proc.Triple.of_fact fun hfile => ?_)
  cases r with
  | none =>
      refine Proc.Triple.pure ?_
      rintro f' rfl
      exact .notFound _
  | some content =>
      refine (Proc.Triple.fseekEnd _).seq hdies (fun ended => Proc.Triple.of_fact fun hend => ?_)
      refine (Proc.Triple.ftell _ _).seq hdies (fun size => Proc.Triple.of_fact fun htell => ?_)
      refine (Proc.Triple.fseekSet 0 _).seq hdies (fun file => Proc.Triple.of_fact fun hset => ?_)
      have hended : ended.2 = ⟨content, content.length⟩ ∨ ended.2 = ⟨content, 0⟩ := hend
      have hpos : ended.2.pos = content.length ∨ ended.2.pos = 0 := by
        rcases hended with h | h
        · exact Or.inl (by rw [h])
        · exact Or.inr (by rw [h])
      have hcontent : ended.2.content = content := by
        rcases hended with h | h <;> rw [h]
      refine readContents_does (hfile content rfl) ?_ ?_ ?_
      · rcases hset with h | h <;> rw [h, ← hcontent]
      · intro hsize
        refine (size_of_ftell htell).imp (fun h => ?_) id
        rcases hpos with hpos | hpos
        · exact h.trans hpos
        · exact absurd (h.trans hpos) hsize
      · rcases hset with h | h
        · exact Or.inl (by rw [h])
        · rw [h]
          exact hpos.symm

theorem knRenameFile_does (longMax : Nat) (f : Files) {oldPath : Value} {args : List Value}
    {old new : CString} (hold : oldPath.toCString numerals = some old)
    (hnew : (args.headD .nil).toCString numerals = some new) :
    Does longMax f (knRenameFile numerals denote (oldPath :: args))
      (.rename (denote old) (denote new)) := by
  simp only [Does, knRenameFile, hold, hnew]
  refine (Proc.Triple.renameFile _ _).seq (killed_unchanged longMax _) (fun status => ?_)
  refine Proc.Triple.of_or (Proc.Triple.of_fact fun h => ?_) (Proc.Triple.of_fact fun h => ?_)
  · refine Proc.Triple.pure ?_
    rintro f' rfl
    simpa [h] using Request.Allows.notRenamed _ _
  · refine Proc.Triple.pure ?_
    rintro f' ⟨content, hfile, rfl⟩
    simpa [h, moved] using Request.Allows.renamed hfile

theorem knDeleteFile_does (longMax : Nat) (f : Files) {path : Value} {name : CString}
    (hpath : path.toCString numerals = some name) (args : List Value) :
    Does longMax f (knDeleteFile numerals denote (path :: args)) (.delete (denote name)) := by
  simp only [Does, knDeleteFile, hpath]
  refine (Proc.Triple.remove _).seq (killed_unchanged longMax _) (fun status => ?_)
  refine Proc.Triple.of_or (Proc.Triple.of_fact fun h => ?_) (Proc.Triple.of_fact fun h => ?_)
  · refine Proc.Triple.pure ?_
    rintro f' rfl
    simpa [h] using Request.Allows.notDeleted _
  · refine Proc.Triple.pure ?_
    rintro f' ⟨content, hfile, rfl⟩
    simpa [h] using Request.Allows.deleted hfile

theorem knIsFile_does (longMax : Nat) (f : Files) {path : Value} {name : CString}
    (hpath : path.toCString numerals = some name) (args : List Value) :
    Does longMax f (knIsFile numerals denote (path :: args)) (.isFile (denote name)) := by
  have hdies := killed_unchanged longMax (f := f) (.isFile (denote name))
  simp only [Does, knIsFile, hpath]
  refine (Proc.Triple.fopenRead _).seq hdies (fun r => Proc.Triple.of_fact fun hfile => ?_)
  cases r with
  | none =>
      refine Proc.Triple.pure ?_
      rintro f' rfl
      exact .isNoFile _
  | some content =>
      refine Proc.Triple.fcloseRead.seq hdies (fun _ => Proc.Triple.of_fact fun _ =>
        Proc.Triple.pure ?_)
      rintro f' rfl
      exact .isFile (hfile content rfl)

/-! ## Histories -/

/-- How arguments spell a request. -/
inductive Spells (numerals : Numerals) (denote : CString → Path) : FileCall → Request → Prop where
  | write {path contents : Value} {name : CString} {data : Bytes} (args : List Value)
      (hpath : path.toCString numerals = some name)
      (hdata : contents.toLString numerals = some data) :
      Spells numerals denote (.writeFile (path :: contents :: args)) (.write (denote name) data)
  | read {path : Value} {name : CString} (args : List Value)
      (hpath : path.toCString numerals = some name) :
      Spells numerals denote (.readFile (path :: args)) (.read (denote name))
  | rename {oldPath : Value} {args : List Value} {old new : CString}
      (hold : oldPath.toCString numerals = some old)
      (hnew : (args.headD .nil).toCString numerals = some new) :
      Spells numerals denote (.renameFile (oldPath :: args)) (.rename (denote old) (denote new))
  | delete {path : Value} {name : CString} (args : List Value)
      (hpath : path.toCString numerals = some name) :
      Spells numerals denote (.deleteFile (path :: args)) (.delete (denote name))
  | isFile {path : Value} {name : CString} (args : List Value)
      (hpath : path.toCString numerals = some name) :
      Spells numerals denote (.isFile (path :: args)) (.isFile (denote name))

/-- A call spells its request, or it is refused at once. -/
theorem FileCall.spells_or_refuses (numerals : Numerals) (denote : CString → Path) (target : Target)
    (call : FileCall) :
    (∃ r, call.request numerals denote = some r ∧ Spells numerals denote call r) ∨
      call.request numerals denote = none ∧
        call.proc numerals denote target = pure [] := by
  cases call with
  | writeFile args =>
      match args with
      | [] => exact Or.inr ⟨rfl, rfl⟩
      | [_] => exact Or.inr ⟨rfl, rfl⟩
      | path :: contents :: args =>
          cases hpath : path.toCString numerals with
          | none => exact Or.inr (by simp [request, proc, knWriteFile, hpath])
          | some name =>
              cases hdata : contents.toLString numerals with
              | none => exact Or.inr (by simp [request, proc, knWriteFile, hpath, hdata])
              | some data =>
                  exact Or.inl ⟨_, by simp [request, hpath, hdata], .write args hpath hdata⟩
  | readFile args =>
      cases args with
      | nil => exact Or.inr ⟨rfl, rfl⟩
      | cons path args =>
          cases hpath : path.toCString numerals with
          | none => exact Or.inr (by simp [request, proc, knReadFile, hpath])
          | some name => exact Or.inl ⟨_, by simp [request, hpath], .read args hpath⟩
  | renameFile args =>
      cases args with
      | nil => exact Or.inr ⟨rfl, rfl⟩
      | cons oldPath args =>
          cases hold : oldPath.toCString numerals with
          | none => exact Or.inr (by simp [request, proc, knRenameFile, hold])
          | some old =>
              cases hnew : (args.headD .nil).toCString numerals with
              | none =>
                  right
                  simp only [request, proc, knRenameFile, hold, hnew]
                  exact ⟨rfl, trivial⟩
              | some new =>
                  left
                  simp only [request, hold, hnew]
                  exact ⟨_, rfl, .rename hold hnew⟩
  | deleteFile args =>
      cases args with
      | nil => exact Or.inr ⟨rfl, rfl⟩
      | cons path args =>
          cases hpath : path.toCString numerals with
          | none => exact Or.inr (by simp [request, proc, knDeleteFile, hpath])
          | some name => exact Or.inl ⟨_, by simp [request, hpath], .delete args hpath⟩
  | isFile args =>
      cases args with
      | nil => exact Or.inr ⟨rfl, rfl⟩
      | cons path args =>
          cases hpath : path.toCString numerals with
          | none => exact Or.inr (by simp [request, proc, knIsFile, hpath])
          | some name => exact Or.inl ⟨_, by simp [request, hpath], .isFile args hpath⟩

/-- Each request is done as it may be. -/
theorem Spells.does {call : FileCall} {r : Request} (h : Spells numerals denote call r) (f : Files) :
    Does target.ptrdiffMax f (call.proc numerals denote target) r := by
  cases h with
  | write args hpath hdata => exact knWriteFile_does _ f hpath hdata args
  | read args hpath => exact knReadFile_does f hpath args
  | rename hold hnew => exact knRenameFile_does _ f hold hnew
  | delete args hpath => exact knDeleteFile_does _ f hpath args
  | isFile args hpath => exact knIsFile_does _ f hpath args

theorem FileCall.proc_allows (call : FileCall) (f : Files) :
    Proc.Triple (fun f' => f' = f) (call.proc numerals denote target)
      (fun results f' => call.Allows numerals denote target.ptrdiffMax f (some results) f')
      (fun f' => call.Allows numerals denote target.ptrdiffMax f none f') := by
  rcases call.spells_or_refuses numerals denote target with ⟨r, hr, hspells⟩ | ⟨hr, hproc⟩
  · simpa only [Allows, hr, Does] using hspells.does f
  · rw [hproc]
    refine Proc.Triple.pure ?_
    rintro f' rfl
    simp only [Allows, hr, and_self]

/-- A step answers, or the process was killed; the files are what the call allows. -/
theorem fileMachine_step (script : Script) (w₀ w : World) (call : FileCall) :
    ∃ w' answer, (fileMachine numerals denote target script w₀).step w call = .ok (w', answer) ∧
      call.Allows numerals denote target.ptrdiffMax w.files answer w'.files := by
  rcases (call.proc_allows w.files : Proc.Triple _ (call.proc numerals denote target) _ _)
      script w rfl with ⟨results, w', hrun, hallows⟩ | ⟨w', hrun, hallows⟩
  · exact ⟨w', some results, by simp only [fileMachine, hrun], hallows⟩
  · exact ⟨w', none, by simp only [fileMachine, hrun], hallows⟩

/-- Where the content of a file comes from: it was there at first, or it is the beginning of what
one of the calls was to write. -/
def Origin (numerals : Numerals) (denote : CString → Path) (f : Files) (calls : List FileCall)
    (content : Bytes) : Prop :=
  (∃ path, f path = some content) ∨
    ∃ call ∈ calls, ∃ path data, call.request numerals denote = some (.write path data) ∧
      content <+: data

/-- The paths whose files a request may change. -/
def Request.touches : Request → List Path
  | .write path _ => [path]
  | .rename old new => [old, new]
  | .delete path => [path]
  | _ => []

namespace Request.Allows

variable {longMax : Nat} {f f' : Files} {r : Request} {answer : Option (List Value)}

theorem origin (h : r.Allows longMax f answer f') {path : Path} {content : Bytes}
    (hfile : f' path = some content) :
    (∃ path', f path' = some content) ∨ ∃ path' data, r = .write path' data ∧ content <+: data := by
  -- a path whose file was replaced holds what was put there
  have hput : ∀ {g : Files} {path' : Path} {new : Option Bytes},
      Function.update g path' new path = some content →
        new = some content ∨ g path = some content := by
    intro g path' new hnew
    by_cases hpath : path = path'
    · subst hpath
      exact Or.inl (by simpa using hnew)
    · exact Or.inr (by simpa [Function.update_of_ne hpath] using hnew)
  cases h with
  | written hstored | notWritten hstored _ | cut hstored =>
      rcases hput hfile with hnew | hold
      · cases hnew
        exact Or.inr ⟨_, _, rfl, hstored⟩
      · exact Or.inl ⟨path, hold⟩
  | renamed hold =>
      rcases hput hfile with hnew | hkept
      · cases hnew
        exact Or.inl ⟨_, hold⟩
      · rcases hput hkept with hnone | hkept
        · cases hnone
        · exact Or.inl ⟨path, hkept⟩
  | deleted _ =>
      rcases hput hfile with hnone | hkept
      · cases hnone
      · exact Or.inl ⟨path, hkept⟩
  | _ => exact Or.inl ⟨path, hfile⟩

theorem untouched (h : r.Allows longMax f answer f') {path : Path} (hpath : path ∉ r.touches) :
    f' path = f path := by
  cases h with
  | written _ | notWritten _ _ | cut _ | deleted _ =>
      exact Function.update_of_ne (by simpa [touches] using hpath) _ f
  | @renamed old new content _ =>
      have hne : ¬ (path = old ∨ path = new) := by simpa [touches] using hpath
      rcases not_or.mp hne with ⟨hold, hnew⟩
      rw [moved, Function.update_of_ne hnew, Function.update_of_ne hold]
  | _ => rfl

/-- What is read is in a file. -/
theorem text (h : r.Allows longMax f answer f') {text : Bytes}
    (hanswer : answer = some [.string text]) :
    ∃ path content, f path = some content ∧ text <+: content := by
  cases h with
  | read hfile =>
      cases hanswer
      exact ⟨_, _, hfile, List.prefix_rfl⟩
  | readNothing hfile =>
      cases hanswer
      exact ⟨_, _, hfile, List.nil_prefix⟩
  | readPart hfile _ htext =>
      cases hanswer
      exact ⟨_, _, hfile, htext⟩
  | _ => cases hanswer

end Request.Allows

variable {f f' : Files} {call : FileCall} {answer : Option (List Value)} {longMax : Nat}

theorem FileCall.Allows.of_request
    (h : call.Allows numerals denote longMax f answer f') :
    (∃ r, call.request numerals denote = some r ∧ r.Allows longMax f answer f') ∨
      call.request numerals denote = none ∧ answer = some [] ∧ f' = f := by
  rw [FileCall.Allows] at h
  cases hr : call.request numerals denote with
  | none =>
      rw [hr] at h
      exact Or.inr ⟨rfl, h⟩
  | some r =>
      rw [hr] at h
      exact Or.inl ⟨r, rfl, h⟩

/-- The calls of a history. -/
abbrev callsOf (tr : List (FileCall × Option (List Value))) : List FileCall := tr.map Prod.fst

/-- What scripts may rely on after a history that began with the files `f`. -/
structure Kept (numerals : Numerals) (denote : CString → Path) (f : Files)
    (tr : List (FileCall × Option (List Value))) (f' : Files) : Prop where
  /-- A file holds what was there at first, or the beginning of something that was written. -/
  origin : ∀ path content, f' path = some content → Origin numerals denote f (callsOf tr) content
  /-- A file that no call was to change is as it was. -/
  untouched : ∀ path, (∀ call ∈ callsOf tr, ∀ r, call.request numerals denote = some r →
    path ∉ r.touches) → f' path = f path
  /-- A text that was read is the beginning of what a file held then. -/
  texts : ∀ front call text back, tr = front ++ (call, some [.string text]) :: back →
    ∃ content, Origin numerals denote f (callsOf front) content ∧ text <+: content

theorem Origin.mono {calls calls' : List FileCall} {content : Bytes}
    (h : Origin numerals denote f calls content) (hsub : calls ⊆ calls') :
    Origin numerals denote f calls' content := by
  rcases h with hfirst | ⟨call, hcall, hwritten⟩
  · exact Or.inl hfirst
  · exact Or.inr ⟨call, hsub hcall, hwritten⟩

theorem Kept.nil (numerals : Numerals) (denote : CString → Path) (f : Files) :
    Kept numerals denote f [] f where
  origin := fun path content hfile => Or.inl ⟨path, hfile⟩
  untouched := fun _ _ => rfl
  texts := by
    intro front call text back h
    exact absurd h (by simp)

theorem Kept.concat {f₀ : Files} {tr : List (FileCall × Option (List Value))}
    (h : Kept numerals denote f₀ tr f) (hallows : call.Allows numerals denote longMax f answer f') :
    Kept numerals denote f₀ (tr ++ [(call, answer)]) f' := by
  have hcalls : callsOf (tr ++ [(call, answer)]) = callsOf tr ++ [call] := by simp
  have hsub : callsOf tr ⊆ callsOf tr ++ [call] := List.subset_append_left _ _
  refine ⟨?_, ?_, ?_⟩
  · intro path content hfile
    rw [hcalls]
    rcases hallows.of_request with ⟨r, hr, hallows⟩ | ⟨_, _, rfl⟩
    · rcases hallows.origin hfile with ⟨path', hold⟩ | ⟨path', data, rfl, hdata⟩
      · exact (h.origin path' content hold).mono hsub
      · exact Or.inr ⟨call, by simp, path', data, hr, hdata⟩
    · exact (h.origin path content hfile).mono hsub
  · intro path hpath
    rw [hcalls] at hpath
    have hbefore : f path = f₀ path := h.untouched path (fun c hc => hpath c (hsub hc))
    rcases hallows.of_request with ⟨r, hr, hallows⟩ | ⟨_, _, rfl⟩
    · exact (hallows.untouched (hpath call (by simp) r hr)).trans hbefore
    · exact hbefore
  · intro front call' text back htr
    rcases Machine.concat_eq_append_cons htr with ⟨_, rfl, hc⟩ | ⟨mid, _, htr'⟩
    · -- the text is the last answer
      obtain ⟨rfl, rfl⟩ := Prod.mk.inj hc
      rcases hallows.of_request with ⟨r, _, hallows⟩ | ⟨_, hrefused, _⟩
      · rcases hallows.text rfl with ⟨path, content, hfile, htext⟩
        exact ⟨content, h.origin path content hfile, htext⟩
      · exact absurd hrefused (by simp)
    · exact h.texts front call' text mid htr'

/-- Every run, whatever fails and kills the process, has no fault; each call does what it is
allowed; and so scripts may rely on `Kept`. -/
theorem files_allowed (numerals : Numerals) (denote : CString → Path) (target : Target)
    (script : Script) (w : World) (calls : List FileCall) :
    ∃ s answers, (fileMachine numerals denote target script w).run calls = .ok (s, answers) ∧
      Trail (fun f e f' => e.1.Allows numerals denote target.ptrdiffMax f e.2 f') w.files
        (calls.zip answers) s.files ∧
      Kept numerals denote w.files (calls.zip answers) s.files := by
  rcases Machine.runFrom_trail (M := fileMachine numerals denote target script w) World.files
      (fun f e f' => e.1.Allows numerals denote target.ptrdiffMax f e.2 f')
      (fileMachine_step script w) calls w with ⟨s, answers, hrun, htrail⟩
  refine ⟨s, answers, hrun, htrail, ?_⟩
  exact htrail.keeps (Kept.nil numerals denote w.files) (fun _ _ _ _ h hallows => h.concat hallows)

/-! ## When nothing fails -/

/-- What a request does to a map from paths to contents. -/
def Request.perform (f : Files) : Request → Files × List Value
  | .write path data => (Function.update f path (some data), [.boolean true])
  | .read path => (f, match f path with
      | some content => [.string content]
      | none => [])
  | .rename old new =>
      match f old with
      | some content => (moved f old new content, [.boolean true])
      | none => (f, [.boolean false])
  | .delete path => (Function.update f path none, [.boolean (f path).isSome])
  | .isFile path => (f, [.boolean (f path).isSome])

def FileCall.perform (numerals : Numerals) (denote : CString → Path) (f : Files) (call : FileCall) :
    Files × Option (List Value) :=
  match call.request numerals denote with
  | some r => ((r.perform f).1, some (r.perform f).2)
  | none => (f, some [])

/-- The files as a map. -/
def fileMap (numerals : Numerals) (denote : CString → Path) (f : Files) :
    Spec Files FileCall (Option (List Value)) where
  init := f
  step := FileCall.perform numerals denote

/-- A file that is read has a size. -/
def Sized (numerals : Numerals) (denote : CString → Path) (target : Target) (f : Files)
    (call : FileCall) : Prop :=
  ∀ path content, call.request numerals denote = some (.read path) → f path = some content →
    content.length ≤ target.ptrdiffMax

variable {w : World} {path : Value} {name : CString}

theorem knWriteFile_smooth (w : World) {contents : Value} {data : Bytes}
    (hpath : path.toCString numerals = some name) (hdata : contents.toLString numerals = some data)
    (args : List Value) :
    ∃ w', knWriteFile numerals denote (path :: contents :: args) Script.smooth w =
        (.ok [.boolean true], w') ∧
      w'.files = Function.update w.files (denote name) (some data) := by
  have hopen := Proc.fopenWrite_done (w := w) (denote name) (rfl : Script.smooth w.clock = .done)
  have hwrite : Proc.fwrite data 1 data.length ⟨denote name, []⟩ Script.smooth
      ((w.write (denote name) []).later 1) =
      (.ok (data.length, ⟨denote name, data⟩), (w.write (denote name) []).later 2) :=
    Proc.fwrite_bytes data ⟨denote name, []⟩ id
  have hclose : Proc.fclose ⟨denote name, data⟩ Script.smooth ((w.write (denote name) []).later 2) =
      (.ok 0, (((w.write (denote name) []).later 2).write (denote name) data).later 1) :=
    Proc.fclose_done ⟨denote name, data⟩ rfl
  refine ⟨(((w.write (denote name) []).later 2).write (denote name) data).later 1, ?_, ?_⟩
  · simp only [knWriteFile, hpath, hdata]
    refine (Proc.bind_ok hopen).trans ((Proc.bind_ok hwrite).trans ((Proc.bind_ok hclose).trans ?_))
    rw [decide_eq_true rfl]
    rfl
  · simp [World.write, World.later]

/-- Whatever it answers, a read changes nothing. -/
theorem Request.Allows.read_unchanged {path : Path}
    (h : (Request.read path).Allows longMax f answer f') : f' = f := by
  cases h <;> rfl

theorem knReadFile_smooth (w : World) (hpath : path.toCString numerals = some name)
    (hsize : ∀ content, w.files (denote name) = some content → content.length ≤ target.ptrdiffMax)
    (args : List Value) :
    ∃ w', knReadFile numerals denote target (path :: args) Script.smooth w =
        (.ok ((Request.read (denote name)).perform w.files).2, w') ∧ w'.files = w.files := by
  have hrun : ∃ w', knReadFile numerals denote target (path :: args) Script.smooth w =
      (.ok ((Request.read (denote name)).perform w.files).2, w') := by
    cases hfile : w.files (denote name) with
    | none =>
        have hopen : Proc.fopenRead (denote name) Script.smooth w = (.ok none, w.later 1) := by
          rw [Proc.fopenRead_done _ rfl, hfile]
        refine ⟨w.later 1, ?_⟩
        simp only [knReadFile, hpath, Request.perform, hfile]
        exact (Proc.bind_ok hopen).trans rfl
    | some content =>
        simp only [Request.perform, hfile]
        exact knReadFile_returns (fun _ => id) hpath hfile (hsize content hfile) args
          (Script.smooth_allDone _ _)
  rcases hrun with ⟨w', hrun⟩
  refine ⟨w', hrun, ?_⟩
  rcases knReadFile_does w.files hpath args Script.smooth w rfl with
    ⟨results, w'', hrun', hallows⟩ | ⟨w'', hkilled, _⟩
  · rw [hrun] at hrun'
    obtain ⟨_, rfl⟩ := Prod.mk.inj hrun'
    exact hallows.read_unchanged
  · rw [hrun] at hkilled
    cases hkilled

theorem knRenameFile_smooth (w : World) {oldPath : Value} {args : List Value} {old new : CString}
    (hold : oldPath.toCString numerals = some old)
    (hnew : (args.headD .nil).toCString numerals = some new) :
    ∃ w', knRenameFile numerals denote (oldPath :: args) Script.smooth w =
        (.ok ((Request.rename (denote old) (denote new)).perform w.files).2, w') ∧
      w'.files = ((Request.rename (denote old) (denote new)).perform w.files).1 := by
  simp only [knRenameFile, hold, hnew, Request.perform]
  cases hfile : w.files (denote old) with
  | none =>
      have hrun : Proc.renameFile (denote old) (denote new) Script.smooth w =
          (.ok (-1), w.later 1) := by
        by_cases hsame : denote old = denote new
        · simp [Proc.renameFile, Proc.interact, Script.smooth, World.later, ← hsame, hfile]
        · simp [Proc.renameFile, Proc.rename, Proc.interact, Script.smooth, World.later, hsame, hfile]
      exact ⟨w.later 1, (Proc.bind_ok hrun).trans rfl, rfl⟩
  | some content =>
      by_cases hsame : denote old = denote new
      · have hrun : Proc.renameFile (denote old) (denote new) Script.smooth w =
            (.ok 0, w.later 1) := by
          simp [Proc.renameFile, Proc.interact, Script.smooth, World.later, ← hsame, hfile]
        refine ⟨w.later 1, (Proc.bind_ok hrun).trans rfl, ?_⟩
        change w.files = moved w.files (denote old) (denote new) content
        unfold moved
        rw [← hsame, Function.update_idem, ← hfile, Function.update_eq_self]
      · have hrun : Proc.renameFile (denote old) (denote new) Script.smooth w =
            (.ok 0, { w.later 1 with files := moved w.files (denote old) (denote new) content }) := by
          simp only [Proc.renameFile, if_neg hsame, Proc.rename, Proc.interact, Script.smooth,
            World.later, hfile, World.write, moved]
          rw [Function.update_comm (Ne.symm hsame)]
        exact ⟨_, (Proc.bind_ok hrun).trans rfl, rfl⟩

theorem knDeleteFile_smooth (w : World) (hpath : path.toCString numerals = some name)
    (args : List Value) :
    ∃ w', knDeleteFile numerals denote (path :: args) Script.smooth w =
        (.ok ((Request.delete (denote name)).perform w.files).2, w') ∧
      w'.files = ((Request.delete (denote name)).perform w.files).1 := by
  simp only [knDeleteFile, hpath, Request.perform]
  cases hfile : w.files (denote name) with
  | none =>
      have hrun : Proc.remove (denote name) Script.smooth w = (.ok (-1), w.later 1) := by
        simp [Proc.remove, Proc.interact, Script.smooth, World.later, hfile]
      refine ⟨w.later 1, (Proc.bind_ok hrun).trans rfl, ?_⟩
      rw [← hfile, Function.update_eq_self]
      rfl
  | some content =>
      have hrun : Proc.remove (denote name) Script.smooth w =
          (.ok 0, { w.later 1 with files := Function.update w.files (denote name) none }) := by
        simp [Proc.remove, Proc.interact, Script.smooth, World.later, hfile]
      exact ⟨_, (Proc.bind_ok hrun).trans rfl, rfl⟩

theorem knIsFile_smooth (w : World) (hpath : path.toCString numerals = some name)
    (args : List Value) :
    ∃ w', knIsFile numerals denote (path :: args) Script.smooth w =
        (.ok [.boolean (w.files (denote name)).isSome], w') ∧ w'.files = w.files := by
  have hopen : Proc.fopenRead (denote name) Script.smooth w =
      (.ok (w.files (denote name)), w.later 1) := Proc.fopenRead_done _ rfl
  simp only [knIsFile, hpath]
  cases hfile : w.files (denote name) with
  | none =>
      rw [hfile] at hopen
      exact ⟨w.later 1, (Proc.bind_ok hopen).trans rfl, rfl⟩
  | some content =>
      rw [hfile] at hopen
      exact ⟨w.later 2, (Proc.bind_ok hopen).trans rfl, rfl⟩

/-- Each request is done as the map does it. -/
theorem Spells.smooth {call : FileCall} {r : Request} (h : Spells numerals denote call r) (w : World)
    (hsized : ∀ path content, r = .read path → w.files path = some content →
      content.length ≤ target.ptrdiffMax) :
    ∃ w', call.proc numerals denote target Script.smooth w = (.ok (r.perform w.files).2, w') ∧
      w'.files = (r.perform w.files).1 := by
  cases h with
  | write args hpath hdata => exact knWriteFile_smooth w hpath hdata args
  | read args hpath => exact knReadFile_smooth w hpath (fun content => hsized _ content rfl) args
  | rename hold hnew => exact knRenameFile_smooth w hold hnew
  | delete args hpath => exact knDeleteFile_smooth w hpath args
  | isFile args hpath => exact knIsFile_smooth w hpath args

/-- When nothing fails, every run answers as the map from paths to contents does, and leaves its
files. -/
theorem files_answers (numerals : Numerals) (denote : CString → Path) (target : Target) (w : World)
    (calls : List FileCall)
    (hsized : (fileMap numerals denote w.files).Admits (Sized numerals denote target) w.files calls) :
    ∃ s, (fileMachine numerals denote target Script.smooth w).run calls =
        .ok (s, (fileMap numerals denote w.files).answers w.files calls) ∧
      s.files = (fileMap numerals denote w.files).final w.files calls := by
  refine Machine.runFrom_refines (R := fun s f => s.files = f)
    (G := Sized numerals denote target) ?_ calls w w.files rfl hsized
  rintro s f call rfl hsized
  rcases call.spells_or_refuses numerals denote target with ⟨r, hr, hspells⟩ | ⟨hr, hproc⟩
  · rcases hspells.smooth s (fun path content hread => hsized path content (hread ▸ hr)) with
      ⟨s', hrun, hfiles⟩
    refine ⟨s', ?_, ?_⟩
    · simp only [fileMachine, hrun, fileMap, FileCall.perform, hr]
    · simp only [fileMap, FileCall.perform, hr, hfiles]
  · refine ⟨s, ?_, ?_⟩
    · simp only [fileMachine, hproc, Proc.pure_apply, fileMap, FileCall.perform, hr]
    · simp only [fileMap, FileCall.perform, hr]

/-- A file that is written, moved and read. -/
theorem files_answers_moved :
    let calls : List FileCall := [.writeFile [.string [0x61], .string [0, 0x62]],
      .renameFile [.string [0x61], .string [0x63]], .isFile [.string [0x61]],
      .readFile [.string [0x63]]]
    ∃ s, (fileMachine plainNumerals CString.bytes .armv7 Script.smooth ⟨fun _ => none, 0⟩).run calls =
        .ok (s, [some [.boolean true], some [.boolean true], some [.boolean false],
          some [.string [0, 0x62]]]) ∧
      s.files = (fileMap plainNumerals CString.bytes fun _ => none).final (fun _ => none) calls := by
  intro calls
  refine files_answers plainNumerals CString.bytes .armv7 ⟨fun _ => none, 0⟩ calls ⟨?_, ?_, ?_, ?_,
    trivial⟩
  · intro path content hread
    cases hread
  · intro path content hread
    cases hread
  · intro path content hread
    cases hread
  · intro path content hread hfile
    cases hread
    cases hfile
    decide

end Files
end KnShim
