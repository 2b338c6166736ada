import KnShim.Lib.Memory
import KnShim.Lib.Stdio
import KnShim.Lua.Value

/-!
# Files.RoundTrip — writing a file and reading it again

`knWriteFile` and `knReadFile` against a file system whose calls may fail.  `knWriteFile` returns
true when `fwrite` has accepted all bytes, and does not look at how `fclose` ends, where they are
flushed.  So its result is right exactly when a flush does not lose what has been accepted.
-/

namespace KnShim
namespace Files

open Lib Lua

/-! ## The functions -/

section Functions

variable (numerals : Numerals) (denote : CString → Path)

/-- `knWriteFile`, with the values that it returns; `denote` is the file that a path leads to. -/
def knWriteFile : List Value → Proc (List Value)
  | path :: contents :: _ =>
      match path.toCString numerals, contents.toLString numerals with
      | some path, some data => do
          match ← Proc.fopenWrite (denote path) with
          | none => return []
          | some file => do
              let (written, file) ← Proc.fwrite data 1 data.length file
              -- what `fclose` returns is not looked at
              let _ ← Proc.fclose file
              return [.boolean (written = data.length)]
      | _, _ => return []
  | _ => return []

/-- `knReadFile` from where it knows the size of the file. -/
def readContents (size : Nat) (file : ReadStream) : Proc (List Value) := do
  if size = 0 then do
    let _ ← Proc.fcloseRead
    return [.string []]
  else do
    if ← Proc.malloc then do
      let (data, _) ← Proc.fread size file
      let _ ← Proc.fcloseRead
      let result := if data.length = size then Value.string data else .nil
      Proc.free
      return [result]
    else do
      let _ ← Proc.fcloseRead
      return []

/-- `knReadFile`, with the values that it returns. -/
def knReadFile (target : Target) : List Value → Proc (List Value)
  | path :: _ =>
      match path.toCString numerals with
      | none => return []
      | some path => do
          match ← Proc.fopenRead (denote path) with
          | none => return []
          | some content => do
              -- nor what `fseek` returns
              let (_, file) ← Proc.fseekEnd ⟨content, 0⟩
              let size ← Proc.ftell target.ptrdiffMax file
              let (_, file) ← Proc.fseekSet 0 file
              readContents (BitVec.ofInt target.wordBits size).toNat file
  | [] => return []

end Functions

variable {target : Target} {numerals : Numerals} {denote : CString → Path}
variable {script : Script} {w : World} {name : CString} {data : Bytes}

/-! ## Reading -/

/-- The calls of `knReadFile` that have to succeed. -/
def readCalls (content : Bytes) : Nat := if content = [] then 4 else 6

/-- The conversion of a `long` that is a length to a `size_t`. -/
theorem toNat_ofInt_length (hsize : data.length ≤ target.ptrdiffMax) :
    (BitVec.ofInt target.wordBits (data.length : Int)).toNat = data.length := by
  have hmax : target.ptrdiffMax < 2 ^ target.wordBits := by
    cases target <;> decide
  rw [BitVec.ofInt_natCast, BitVec.toNat_ofNat, Nat.mod_eq_of_lt (lt_of_le_of_lt hsize hmax)]

/-- Behind the calls up to the second `fseek`. -/
theorem readContents_returns (hscript : ∀ n, ¬ (script n).Deadly)
    (hdone : data ≠ [] → script.AllDone w.clock 2) :
    ∃ w', readContents data.length ⟨data, 0⟩ script w = (.ok [.string data], w') := by
  rw [readContents]
  by_cases hempty : data = []
  · subst hempty
    rcases Proc.fcloseRead_apply (hscript w.clock) with ⟨r, hclose⟩
    exact ⟨w.later 1, (Proc.bind_ok hclose).trans rfl⟩
  · have hlength : data.length ≠ 0 := fun h => hempty (List.length_eq_zero_iff.mp h)
    rw [if_neg hlength]
    have hmalloc : Proc.malloc script w = (.ok true, w.later 1) :=
      Proc.malloc_done (hdone hempty 0 (by decide))
    have hread : Proc.fread data.length ⟨data, 0⟩ script (w.later 1) =
        (.ok (data, ⟨data, data.length⟩), w.later 2) :=
      Proc.fread_all data (hdone hempty 1 (by decide))
    rcases Proc.fcloseRead_apply (hscript (w.later 2).clock) with ⟨r, hclose⟩
    have hfree := Proc.free_apply (hscript (w.later 3).clock)
    refine ⟨w.later 4, (Proc.bind_ok hmalloc).trans ((Proc.bind_ok hread).trans
      ((Proc.bind_ok hclose).trans ((Proc.bind_ok hfree).trans ?_)))⟩
    simp only [if_true]
    rfl

/-- A file is read back as it is, the empty file by its shortcut. -/
theorem knReadFile_returns (hscript : ∀ n, ¬ (script n).Deadly) {path : Value}
    (hpath : path.toCString numerals = some name) (hfile : w.files (denote name) = some data)
    (hsize : data.length ≤ target.ptrdiffMax) (args : List Value)
    (hdone : script.AllDone w.clock (readCalls data)) :
    ∃ w', knReadFile numerals denote target (path :: args) script w =
      (.ok [.string data], w') := by
  have hcalls : 4 ≤ readCalls data := by
    rw [readCalls]
    split <;> decide
  have hcall : ∀ k < 4, script (w.clock + k) = .done :=
    fun k hk => hdone k (lt_of_lt_of_le hk hcalls)
  have hopen : Proc.fopenRead (denote name) script w = (.ok (some data), w.later 1) := by
    rw [Proc.fopenRead_done _ (hcall 0 (by decide)), hfile]
  have hend : Proc.fseekEnd ⟨data, 0⟩ script (w.later 1) =
      (.ok (0, ⟨data, data.length⟩), w.later 2) :=
    Proc.fseekEnd_done _ (hcall 1 (by decide))
  have htell : Proc.ftell target.ptrdiffMax ⟨data, data.length⟩ script (w.later 2) =
      (.ok (data.length : Int), w.later 3) :=
    Proc.ftell_done hsize (hcall 2 (by decide))
  have hset : Proc.fseekSet 0 ⟨data, data.length⟩ script (w.later 3) =
      (.ok (0, ⟨data, 0⟩), w.later 4) :=
    Proc.fseekSet_done 0 _ (hcall 3 (by decide))
  -- `malloc` and `fread` are called unless the file is empty
  have hrest : data ≠ [] → script.AllDone (w.later 4).clock 2 := by
    intro hempty k hk
    rw [World.later_clock, Nat.add_assoc]
    refine hdone (4 + k) ?_
    rw [readCalls, if_neg hempty]
    omega
  rcases readContents_returns hscript hrest with ⟨w', hcontents⟩
  refine ⟨w', ?_⟩
  simp only [knReadFile, hpath]
  refine (Proc.bind_ok hopen).trans ((Proc.bind_ok hend).trans ((Proc.bind_ok htell).trans
    ((Proc.bind_ok hset).trans ?_)))
  simp only [toNat_ofInt_length hsize]
  exact hcontents

/-! ## Writing -/

/-- What the result of `knWriteFile` should say of the file. -/
structure Honest (numerals : Numerals) (denote : CString → Path) (target : Target)
    (script : Script) (path : Value) (name : CString) (data : Bytes) (results : List Value)
    (w : World) : Prop where
  /-- After `true`, reading the file gives the data, unless a call of the reading fails. -/
  reads : results.headD .nil = .boolean true → ∃ content, w.files (denote name) = some content ∧
    (script.AllDone w.clock (readCalls content) →
      ∃ w', knReadFile numerals denote target [path] script w = (.ok [.string data], w'))
  /-- If the file is not what was to be written, the result is `nil` or `false`. -/
  reports : w.files (denote name) ≠ some data →
    results.headD .nil = .nil ∨ results.headD .nil = .boolean false

theorem knWriteFile_fails {path contents : Value} (hpath : path.toCString numerals = some name)
    (hdata : contents.toLString numerals = some data) (args : List Value) {kept : Nat}
    (h : script w.clock = .fails kept) :
    knWriteFile numerals denote (path :: contents :: args) script w = (.ok [], w.later 1) := by
  simp only [knWriteFile, hpath, hdata]
  exact (Proc.bind_ok (Proc.fopenWrite_fails _ h)).trans rfl

/-- Once the file is open, it holds what the flush stores of what `fwrite` accepted, and the result
is about `fwrite` alone. -/
theorem knWriteFile_done (hscript : ∀ n, ¬ (script n).Deadly) {path contents : Value}
    (hpath : path.toCString numerals = some name)
    (hdata : contents.toLString numerals = some data) (args : List Value)
    (h : script w.clock = .done) :
    ∃ w', knWriteFile numerals denote (path :: contents :: args) script w =
        (.ok [.boolean ((script (w.clock + 1)).accepts data = data)], w') ∧
      w'.files (denote name) =
        some ((script (w.clock + 2)).flushes ((script (w.clock + 1)).accepts data)) := by
  have hwrite := Proc.fwrite_bytes data ⟨denote name, []⟩
    (hscript ((w.write (denote name) []).later 1).clock)
  rcases Proc.fclose_flushes ⟨denote name, [] ++ (script (w.clock + 1)).accepts data⟩
    (hscript (((w.write (denote name) []).later 1).later 1).clock) with ⟨r, hclose⟩
  have hall : (script (w.clock + 1)).accepts data = data ↔
      ((script (w.clock + 1)).accepts data).length = data.length :=
    ⟨fun h => congrArg List.length h, fun h => (Fate.accepts_prefix _ data).eq_of_length h⟩
  simp only [knWriteFile, hpath, hdata, hall]
  refine ⟨_, (Proc.bind_ok (Proc.fopenWrite_done _ h)).trans
    ((Proc.bind_ok hwrite).trans ((Proc.bind_ok hclose).trans rfl)), ?_⟩
  simp [World.write, World.later]

/-- The result is honest exactly when the flush stores what `fwrite` has accepted completely. -/
theorem writeFile_honest_iff (target : Target) (numerals : Numerals) (denote : CString → Path)
    {path contents : Value} {name : CString} {data : Bytes} (args : List Value)
    (hpath : path.toCString numerals = some name)
    (hdata : contents.toLString numerals = some data)
    (hsize : data.length ≤ target.ptrdiffMax) (script : Script)
    (hscript : ∀ n, ¬ (script n).Deadly) (w : World) :
    (∃ results w', knWriteFile numerals denote (path :: contents :: args) script w =
          (.ok results, w') ∧
        Honest numerals denote target script path name data results w') ↔
      (script w.clock = .done → (script (w.clock + 1)).accepts data = data →
        (script (w.clock + 2)).flushes data = data) := by
  cases hopen : script w.clock with
  | done =>
      rcases knWriteFile_done hscript hpath hdata args hopen with ⟨w', hrun, hfile⟩
      by_cases hall : (script (w.clock + 1)).accepts data = data
      · rw [hall] at hrun hfile
        constructor
        · rintro ⟨results, w₁, hrun', hhonest⟩ _ _
          rw [hrun] at hrun'
          cases hrun'
          -- the result is `true`, so the file has to be right
          by_contra hne
          rw [← Option.some_inj, ← hfile] at hne
          rcases hhonest.reports hne with h | h
          · cases h
          · simp at h
        · intro hflush
          rw [hflush rfl hall] at hfile
          refine ⟨_, w', hrun, fun _ => ⟨data, hfile, ?_⟩, fun hne => absurd hfile hne⟩
          exact knReadFile_returns hscript hpath hfile hsize []
      · -- a short count is reported
        refine iff_of_true ⟨_, w', hrun, ?_, ?_⟩ (fun _ h => absurd h hall)
        · intro h
          simp [hall] at h
        · intro _
          simp [hall]
  | fails kept =>
      refine iff_of_true ⟨_, _, knWriteFile_fails hpath hdata args hopen, ?_, ?_⟩
        (fun h => by cases h)
      · intro h
        cases h
      · intro _
        exact Or.inl rfl
  | dies kept =>
      have hdeadly := hscript w.clock
      rw [hopen] at hdeadly
      exact absurd trivial hdeadly

/-! ## One byte -/

/-- Conversions of numbers.  The calls below have none to make. -/
def plainNumerals : Numerals where
  number2str := fun _ => CString.empty
  str2d := fun _ => none
  widen := fun _ => .nan
  narrow := fun _ => 0

/-- The flush fails after the bytes have been stored. -/
theorem writeFile_honest_late :
    let script : Script := fun n => if n = 2 then .fails 3 else .done
    let data : Bytes := [0x61, 0, 0x62]
    ∃ results w', knWriteFile plainNumerals CString.bytes [.string [0x66], .string data] script
        ⟨fun _ => none, 0⟩ = (.ok results, w') ∧
      Honest plainNumerals CString.bytes .armv7 script (.string [0x66]) ⟨[0x66], by decide⟩ data
        results w' := by
  intro script data
  exact (writeFile_honest_iff .armv7 plainNumerals CString.bytes [] rfl rfl (by decide) script
    (Fate.not_deadly_once 2 3) ⟨fun _ => none, 0⟩).mpr (fun _ _ => rfl)

/-- The flush fails because the disk is full: the file is left empty, and the result is `true`. -/
theorem writeFile_not_honest :
    let script : Script := fun n => if n = 2 then .fails 0 else .done
    ∃ w', knWriteFile plainNumerals CString.bytes [.string [0x66], .string [0x78]] script
        ⟨fun _ => none, 0⟩ = (.ok [.boolean true], w') ∧
      w'.files [0x66] = some [] ∧
      ¬ Honest plainNumerals CString.bytes .armv7 script (.string [0x66]) ⟨[0x66], by decide⟩
        [0x78] [.boolean true] w' := by
  intro script
  have hname : (Value.string [0x66]).toCString plainNumerals = some ⟨[0x66], by decide⟩ := rfl
  have hdata : (Value.string [0x78]).toLString plainNumerals = some [0x78] := rfl
  have hwritten : ∃ w', knWriteFile plainNumerals CString.bytes
      [.string [0x66], .string [0x78]] script ⟨fun _ => none, 0⟩ = (.ok [.boolean true], w') ∧
      w'.files [0x66] = some [] :=
    knWriteFile_done (Fate.not_deadly_once 2 0) hname hdata [] rfl
  rcases hwritten with ⟨w', hrun, hempty⟩
  refine ⟨w', hrun, hempty, ?_⟩
  intro hhonest
  have hne : w'.files [0x66] ≠ some [0x78] := by
    rw [hempty]
    decide
  rcases hhonest.reports hne with h | h
  · cases h
  · cases h

end Files
end KnShim
