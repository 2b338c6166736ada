import KnShim.HashTable.Dict
import KnShim.Lib.LittleEndian
import KnShim.Lib.Stdio

/-!
# SaveDict — writing the database of `reg.c`

`serialize` is the database format: the magic, the number of pairs, and each key and value behind
its length.  `saveDict` writes it to a temporary file, one `fwrite` for each chunk, and renames that
file over the database.
-/

namespace KnShim
namespace Database

open Lib HashTable

/-! ## The format -/

/-- `KN_DATABASE_MAGIC`. -/
def databaseMagic : Nat := 0x4b ||| (0x4e <<< 8) ||| (0x4f <<< 16) ||| (0x54 <<< 24)

/-- The four chunks that a pair is written as. -/
def pairChunks (entry : Bytes × Bytes) : List Bytes :=
  [toLE 4 entry.1.length, entry.1, toLE 4 entry.2.length, entry.2]

/-- The chunks of a whole database. -/
def chunks (entries : List (Bytes × Bytes)) : List Bytes :=
  toLE 4 databaseMagic :: toLE 4 entries.length :: entries.flatMap pairChunks

/-- The bytes of a whole database. -/
def serialize (entries : List (Bytes × Bytes)) : Bytes := (chunks entries).flatten

/-! ## Writing -/

/-- `WriteInt`; true on error. -/
def writeInt (file : Stream) (data : Nat) : Proc (Bool × Stream) := do
  let (items, file) ← Proc.fwrite (toLE 4 data) 4 1 file
  return (items == 0, file)

/-- `WriteData`; true on error. -/
def writeData (file : Stream) (size : Nat) (buffer : Bytes) :
    Proc (Bool × Stream) := do
  let (items, file) ← Proc.fwrite buffer size 1 file
  return (items == 0, file)

/-- The blob behind a pointer that is about to be dereferenced. -/
def deref (blob : Option Blob) : Fallible Blob :=
  match blob with
  | some blob => .ok blob
  | none => .error .nullDeref

/-- The two writes of `SaveDict` for one blob. -/
def writeBlob (file : Stream) (blob : Blob) (error : Bool) :
    Proc (Bool × Stream) := do
  let (e, file) ← writeInt file blob.length
  let error := error || e
  let (e, file) ← writeData file blob.length blob.data
  return (error || e, file)

/-- The loop of `SaveDict` over the pairs, with `fuel` steps left at step `i`. -/
def writePairs (dict : Dict) : Nat → Nat → Bool → Stream → Proc (Bool × Stream)
  | 0, _, error, file => return (error, file)
  | fuel + 1, i, error, file => do
      let blob ← Proc.lift (dictKeyIter dict i >>= deref)
      let (error, file) ← writeBlob file blob error
      let blob ← Proc.lift (dictValueIter dict i >>= deref)
      let (error, file) ← writeBlob file blob error
      writePairs dict fuel (i + 1) error file

/-- The part of `SaveDict` between `fopen` and `fclose`. -/
def writeDict (dict : Dict) (file : Stream) : Proc (Bool × Stream) := do
  let (e, file) ← writeInt file databaseMagic
  let error := false || e
  let length := dictLen dict
  let (e, file) ← writeInt file length
  writePairs dict length 0 (error || e) file

/-- `".new"`. -/
def newSuffix : Path := [0x2e, 0x6e, 0x65, 0x77]

/-- The rest of `SaveDict`, from `fclose` on. -/
def finishSave (error : Bool) (file : Stream) (tempPath path : Path) : Proc Bool := do
  -- what `fclose` returns is not looked at
  let _ ← Proc.fclose file
  if error then do
    Proc.free
    return false
  else do
    let success ← Proc.rename tempPath path
    Proc.free
    return success == 0

/-- `SaveDict`. -/
def saveDict (dict : Dict) (path : Path) : Proc Bool := do
  let granted ← Proc.malloc
  if granted then
    let tempPath := path ++ newSuffix
    match ← Proc.fopenWrite tempPath with
    | none => do
        Proc.free
        return false
    | some file => do
        let (error, file) ← writeDict dict file
        finishSave error file tempPath path
  else
    return false

end Database
end KnShim
