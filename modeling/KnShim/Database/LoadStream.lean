import KnShim.Database.LoadDict
import KnShim.Lib.CrashLogic

/-!
# LoadStream — reading the database while reads fail

`loadDict` is what `LoadDict` makes of a file that is read as it is.  Here each `fread` of it is an
interaction: it may deliver less than it could, and the process may be killed in it.  When no read
fails the result is that of `loadDict`: `readDict_computes`.
-/

namespace KnShim
namespace Database

open Lib HashTable

/-! ## The readers -/

/-- `fread`, where `file` is what the stream still has. -/
def freadStream (size : Nat) (file : Bytes) : Proc (Bytes × Bytes) := do
  let (data, file) ← Proc.fread size ⟨file, 0⟩
  return (data, file.content.drop file.pos)

/-- `ReadInt`. -/
def readIntStream (file : Bytes) : Proc (Option Nat × Bytes) := do
  let (data, file) ← freadStream 4 file
  return (if data.length = 4 then some (ofLE data) else none, file)

/-- `ReadData`. -/
def readDataStream (heap : Heap) (file : Bytes) (size : Nat) : Proc (Option Bytes × Bytes) :=
  if heap.buffer size then do
    let (data, file) ← freadStream size file
    return (if data.length = size then some data else none, file)
  else
    return (none, file)

/-- The body of the loop of `LoadDict`. -/
def loadPairStream (heap : Heap) (dict : Dict) (id : Nat) (file : Bytes) :
    Proc (Dict × List Blob × Bytes) := do
  let (keyLen, file) ← readIntStream file
  let keyLen ← Proc.lift (determinate keyLen)
  let (keyData, file) ← readDataStream heap file keyLen
  let (valLen, file) ← readIntStream file
  let valLen ← Proc.lift (determinate valLen)
  let (valData, file) ← readDataStream heap file valLen
  let key ← Proc.lift (createBlobIn heap id keyData keyLen)
  let value ← Proc.lift (createBlobIn heap (id + 1) valData valLen)
  let key ← Proc.lift (deref key)
  let o ← Proc.lift (dictSet heap.table dict key value)
  return (o.dict, key :: value.toList, file)

/-- The loop of `LoadDict`, with `fuel` records to go. -/
def loadPairsStream (heap : Heap) : Nat → Dict → Nat → Bytes → Proc (Dict × List Blob)
  | 0, dict, _, _ => return (dict, [])
  | fuel + 1, dict, id, file => do
      let (dict, created, file) ← loadPairStream heap dict id file
      let (dict, rest) ← loadPairsStream heap fuel dict (id + 2) file
      return (dict, created ++ rest)

/-- The part of `LoadDict` between `fopen` and `fclose`. -/
def readDict (heap : Heap) (dict : Dict) (id : Nat) (file : Bytes) : Proc Loaded := do
  let (magic, file) ← readIntStream file
  let magic ← Proc.lift (determinate magic)
  if magic ≠ databaseMagic then
    return ⟨dict, [], false⟩
  else do
    let (length, file) ← readIntStream file
    let length ← Proc.lift (determinate length)
    let (dict, created) ← loadPairsStream heap length dict id file
    return ⟨dict, created, true⟩

/-- `LoadDict`. -/
def loadDictStream (heap : Heap) (dict : Dict) (id : Nat) (path : Path) : Proc Loaded := do
  match ← Proc.fopenRead path with
  | none => return ⟨dict, [], false⟩
  | some file => do
      let o ← readDict heap dict id file
      -- what `fclose` returns is not looked at
      let _ ← Proc.fcloseRead
      return o

/-! ## What they compute -/

theorem freadStream_computes (size : Nat) (file : Bytes) :
    Proc.Computes (freadStream size file) (.ok (fread size file)) 1 := by
  have hread : Proc.Computes (Proc.fread size ⟨file, 0⟩)
      (.ok (file.take size, ⟨file, 0 + (file.take size).length⟩)) 1 :=
    .interact (fun w => rfl) (fun kept w => rfl)
  have hrest : file.drop (0 + (file.take size).length) = file.drop size := by
    rw [Nat.zero_add, List.length_take]
    rcases Nat.le_total size file.length with hle | hle
    · rw [Nat.min_eq_left hle]
    · rw [Nat.min_eq_right hle, List.drop_length, List.drop_eq_nil_of_le hle]
  have hwhole := hread.bind (g := fun r => .ok (r.1, r.2.content.drop r.2.pos))
    (fun r _ => Proc.Computes.pure (r.1, r.2.content.drop r.2.pos))
  rwa [Fallible.ok_bind, hrest] at hwhole

theorem readIntStream_computes (file : Bytes) :
    Proc.Computes (readIntStream file) (.ok (readInt file)) 1 :=
  (freadStream_computes 4 file).bind (fun _ _ => .pure _)

theorem readDataStream_computes (heap : Heap) (file : Bytes) (size : Nat) :
    Proc.Computes (readDataStream heap file size) (.ok (readData heap file size)) 1 := by
  rw [readDataStream, readData]
  split_ifs
  · exact (freadStream_computes size file).bind (fun _ _ => .pure _)
  · exact (Proc.Computes.pure _).mono (Nat.zero_le 1)

/-- One record is four reads. -/
theorem loadPairStream_computes (heap : Heap) (dict : Dict) (id : Nat) (file : Bytes) :
    Proc.Computes (loadPairStream heap dict id file) (loadPair heap dict id file) 4 := by
  -- `loadPair`, with the readers as steps
  have hpair : loadPair heap dict id file = (do
      let (keyLen, file) ← (.ok (readInt file) : Fallible _)
      let keyLen ← determinate keyLen
      let (keyData, file) ← (.ok (readData heap file keyLen) : Fallible _)
      let (valLen, file) ← (.ok (readInt file) : Fallible _)
      let valLen ← determinate valLen
      let (valData, file) ← (.ok (readData heap file valLen) : Fallible _)
      let key ← createBlobIn heap id keyData keyLen
      let value ← createBlobIn heap (id + 1) valData valLen
      let key ← deref key
      let o ← dictSet heap.table dict key value
      return (o.dict, key :: value.toList, file)) := rfl
  rw [hpair, loadPairStream]
  refine (readIntStream_computes file).bind fun r₁ _ => ?_
  refine (Proc.Computes.lift _).bind fun keyLen _ => ?_
  refine (readDataStream_computes heap _ keyLen).bind fun r₂ _ => ?_
  refine (readIntStream_computes _).bind fun r₃ _ => ?_
  refine (Proc.Computes.lift _).bind fun valLen _ => ?_
  refine (readDataStream_computes heap _ valLen).bind fun r₄ _ => ?_
  refine (Proc.Computes.lift _).bind fun key _ => ?_
  refine (Proc.Computes.lift _).bind fun value _ => ?_
  refine (Proc.Computes.lift _).bind fun key _ => ?_
  refine (Proc.Computes.lift _).bind fun o _ => ?_
  exact Proc.Computes.pure _

theorem loadPairsStream_computes (heap : Heap) (fuel : Nat) (dict : Dict) (id : Nat)
    (file : Bytes) :
    Proc.Computes (loadPairsStream heap fuel dict id file) (loadPairs heap fuel dict id file)
      (4 * fuel) := by
  induction fuel generalizing dict id file with
  | zero => exact Proc.Computes.pure _
  | succ fuel ih =>
      have hloop : Proc.Computes (loadPairsStream heap (fuel + 1) dict id file)
          (loadPairs heap (fuel + 1) dict id file) (0 + 4 * fuel + 4) := by
        refine (loadPairStream_computes heap dict id file).bind fun r _ => ?_
        exact (ih r.1 (id + 2) r.2.2).bind fun _ _ => Proc.Computes.pure _
      exact hloop.mono (by omega)

/-- The reads of `LoadDict`: two words, and four reads for each pair that the second one counts. -/
def loadReads (file : Bytes) : Nat := 2 + 4 * ofLE ((file.drop 4).take 4)

/-- A word that is used is the one that stands in the file. -/
theorem eq_ofLE_of_determinate {file : Bytes} {n : Nat}
    (h : determinate (readInt file).1 = .ok n) : n = ofLE (file.take 4) := by
  rw [readInt_eq] at h
  split_ifs at h
  · exact (Except.ok.inj h).symm
  · cases h

/-- When no read fails, the part of `LoadDict` behind `fopen` is `loadDict`. -/
theorem readDict_computes (heap : Heap) (dict : Dict) (id : Nat) (file : Bytes) :
    Proc.Computes (readDict heap dict id file) (loadDict heap dict id (some file))
      (loadReads file) := by
  have hdict : loadDict heap dict id (some file) = (do
      let (magic, file) ← (.ok (readInt file) : Fallible _)
      let magic ← determinate magic
      if magic ≠ databaseMagic then
        return ⟨dict, [], false⟩
      else do
        let (length, file) ← (.ok (readInt file) : Fallible _)
        let length ← determinate length
        let (dict, created) ← loadPairs heap length dict id file
        return ⟨dict, created, true⟩) := rfl
  have hcount : 2 + 4 * ofLE ((file.drop 4).take 4) =
      0 + 4 * ofLE ((file.drop 4).take 4) + 0 + 1 + 0 + 1 := by omega
  rw [hdict, readDict, loadReads, hcount]
  refine (readIntStream_computes file).bind fun r₁ hr₁ => ?_
  cases hr₁
  refine (Proc.Computes.lift _).bind fun magic _ => ?_
  -- the magic decides whether anything more is read
  by_cases hmagic : magic ≠ databaseMagic
  · rw [if_pos hmagic, if_pos hmagic]
    exact (Proc.Computes.pure _).mono (Nat.zero_le _)
  rw [if_neg hmagic, if_neg hmagic]
  refine (readIntStream_computes _).bind fun r₂ hr₂ => ?_
  cases hr₂
  refine (Proc.Computes.lift _).bind fun length hlength => ?_
  obtain rfl : length = ofLE ((file.drop 4).take 4) := eq_ofLE_of_determinate hlength
  exact (loadPairsStream_computes heap _ dict id _).bind fun _ _ => Proc.Computes.pure _

/-- A file that is there is opened and read without a failure; one that is not there may be missed
in any way. -/
def OpensAndReads (path : Path) (script : Script) (w : World) : Prop :=
  ∀ file, w.files path = some file →
    ∀ k ≤ loadReads file, ∀ kept, script (w.clock + k) ≠ .fails kept

theorem OpensAndReads.smooth (path : Path) (w : World) : OpensAndReads path .smooth w :=
  fun _ _ _ _ _ hfails => nomatch hfails

/-- Closing the stream changes nothing, but the process may be killed in it. -/
theorem readDict_closes {heap : Heap} {dict : Dict} {id : Nat} {file : Bytes} {script : Script}
    {w w₁ w₂ : World} {x : Fallible Loaded} (hfiles : w₂.files = w.files)
    (hrun : readDict heap dict id file script w₁ = (x, w₂)) :
    ∃ w', w'.files = w.files ∧
      ((readDict heap dict id file >>= fun o => Proc.fcloseRead >>= fun _ => pure o) script w₁ =
          (x, w') ∨
        (readDict heap dict id file >>= fun o => Proc.fcloseRead >>= fun _ => pure o) script w₁ =
          (.error .killed, w') ∧ ∃ k, (script k).Deadly) := by
  cases x with
  | error e => exact ⟨w₂, hfiles, Or.inl (Proc.bind_error hrun)⟩
  | ok o =>
      rw [Proc.bind_ok hrun]
      refine ⟨w₂.later 1, hfiles, ?_⟩
      by_cases hdead : (script w₂.clock).Deadly
      · exact Or.inr ⟨Proc.bind_error (Proc.fcloseRead_killed hdead), _, hdead⟩
      · rcases Proc.fcloseRead_apply hdead with ⟨r, hclose⟩
        exact Or.inl (Proc.bind_ok hclose)

/-- `LoadDict` is `loadDict` on the file as it is, or the process is killed in it. -/
theorem loadDictStream_eq (heap : Heap) (dict : Dict) (id : Nat) {path : Path} {script : Script}
    {w : World} (h : OpensAndReads path script w) :
    ∃ w', w'.files = w.files ∧
      (loadDictStream heap dict id path script w = (loadDict heap dict id (w.files path), w') ∨
        loadDictStream heap dict id path script w = (.error .killed, w') ∧
          ∃ k, (script k).Deadly) := by
  have hdies : ∀ kept, script w.clock = .dies kept →
      loadDictStream heap dict id path script w = (.error .killed, w.later 1) := by
    intro kept hfate
    exact Proc.bind_error (Proc.interact_apply hfate)
  cases hfile : w.files path with
  | none =>
      have hnone : ∀ hopen : Proc.fopenRead path script w = (.ok none, w.later 1),
          loadDictStream heap dict id path script w = (loadDict heap dict id none, w.later 1) :=
        fun hopen => Proc.bind_ok hopen
      refine ⟨w.later 1, rfl, ?_⟩
      cases hfate : script w.clock with
      | done => exact Or.inl (hnone (hfile ▸ Proc.fopenRead_done path hfate))
      | fails kept => exact Or.inl (hnone (Proc.interact_apply hfate))
      | dies kept => exact Or.inr ⟨hdies kept hfate, w.clock, by rw [hfate]; trivial⟩
  | some file =>
      cases hfate : script w.clock with
      | fails kept => exact absurd hfate (h file hfile 0 (Nat.zero_le _) kept)
      | dies kept =>
          exact ⟨w.later 1, rfl, Or.inr ⟨hdies kept hfate, w.clock, by rw [hfate]; trivial⟩⟩
      | done =>
          have hopen : Proc.fopenRead path script w = (.ok (some file), w.later 1) :=
            hfile ▸ Proc.fopenRead_done path hfate
          have hreads : ∀ k < loadReads file, ∀ kept,
              script ((w.later 1).clock + k) ≠ .fails kept := by
            intro k hk kept
            rw [World.later_clock, Nat.add_assoc]
            exact h file hfile (1 + k) (by omega) kept
          rw [loadDictStream, Proc.bind_ok hopen]
          rcases readDict_computes heap dict id file script (w.later 1) hreads with
            ⟨w₁, hfiles, _, _, hrun | ⟨hrun, k, _, hdead⟩⟩
          · exact readDict_closes hfiles hrun
          · exact ⟨w₁, hfiles, Or.inr ⟨Proc.bind_error hrun, _, hdead⟩⟩

end Database
end KnShim
