import KnShim.Lib.CString
import KnShim.Lib.LittleEndian
import KnShim.Lib.Memory

/-!
# Extract — the archive extractor of `nxarchive.c`

The functions follow the C text.  Pointers into the archive are offsets from its start, `size_t`
arithmetic wraps, and `tmp_path` is an array of 2048 bytes that starts with whatever the stack held.
Every access to either is checked, so a run that is `.ok` stays inside them.

What `NXExtractArchive` does to the file system does not influence it: the result of `mkdir` is not
looked at, and `NXWriteBufToFile` returns nothing.  So a run lists its effects in order.
-/

namespace KnShim
namespace NxArchive

open Lib

/-- `PATH_MAX`. -/
def pathMax : Nat := 2048

/-! ## Strings -/

/-- `strcpy_s`; true on failure. -/
def strcpyS (dest : Bytes) (destsz : Nat) (src : CString) : Fallible (Bytes × Bool) :=
  if destsz = 0 then .ok (dest, true)
  else if destsz < src.length + 1 then .ok (dest, true)
  else do
    let dest ← CString.store dest 0 src
    return (dest, false)

/-- `strcat_s`; true on failure. -/
def strcatS (dest : Bytes) (destsz : Nat) (src : CString) : Fallible (Bytes × Bool) :=
  if destsz = 0 then .ok (dest, true)
  else if (0 : UInt8) ∉ dest.take destsz then .ok (dest, true)
  else do
    let s ← CString.read dest
    if s.length + src.length + 1 > destsz then return (dest, true)
    else do
      let dest ← CString.store dest s.length src
      return (dest, false)

/-! ## Readers -/

/-- `NXArchiveExtractor`; `size` is the length of the buffer. -/
structure Extractor where
  base : Bytes
  pos : Nat

/-- `NXFromBuffer`. -/
def fromBuffer (buf : Bytes) : Extractor := ⟨buf, 0⟩

/-- `NXReadIntoBuf`, into a buffer that is not `NULL`; `none` on failure. -/
def readIntoBuf (target : Target) (self : Extractor) (size : Nat) :
    Fallible (Option Bytes × Extractor) :=
  if (self.pos + size) % 2 ^ target.wordBits > self.base.length then .ok (none, self)
  else do
    let data ← readSlice self.base self.pos size
    return (some data, { self with pos := (self.pos + size) % 2 ^ target.wordBits })

/-- `this->size - this->pos`. -/
def Extractor.remaining (target : Target) (self : Extractor) : Nat :=
  (self.base.length + 2 ^ target.wordBits - self.pos) % 2 ^ target.wordBits

/-- `NXGetPointer`; `none` is `NULL`. -/
def getPointer (target : Target) (self : Extractor) (size : Nat) : Option Nat × Extractor :=
  if self.remaining target < size then (none, self)
  else (some self.pos, { self with pos := (self.pos + size) % 2 ^ target.wordBits })

/-- `NXGetStringPointer`; `none` is `NULL`. -/
def getStringPointer (target : Target) (self : Extractor) (size : Nat) :
    Fallible (Option Nat × Extractor) :=
  if self.remaining target < size then .ok (none, self)
  else do
    let last ← readAt self.base
      ((self.pos + size + (2 ^ target.wordBits - 1)) % 2 ^ target.wordBits)
    if last ≠ 0 then return (none, self)
    else return (some self.pos, { self with pos := (self.pos + size) % 2 ^ target.wordBits })

/-- `NXReadInt`: 0 when there are not four bytes left. -/
def readInt (target : Target) (self : Extractor) : Fallible (Nat × Extractor) := do
  let (data, self) ← readIntoBuf target self 4
  match data with
  | none => return (0, self)
  | some data => return (ofLE data, self)

/-! ## Extraction -/

/-- What extraction does to the file system. -/
inductive Effect where
  | writeFile (path : CString) (data : Bytes)
  | makeDirectory (path : CString)
  deriving DecidableEq

/-- Where a command leads: to the next command, or out of `NXExtractArchive`. -/
inductive Flow where
  | next (self : Extractor) (tmpPath : Bytes) (effect : Option Effect)
  | finished (error : Option String)

/-- The start of the commands 200 and 201: read a name and append it to the path.  They differ in
their error texts. -/
def appendName (target : Target) (self : Extractor) (tmpPath : Bytes)
    (unreadable tooLong : String) : Fallible (Except String (Extractor × Bytes)) := do
  let (nameSize, self) ← readInt target self
  let (name, self) ← getStringPointer target self nameSize
  match name with
  | none => return .error unreadable
  | some name =>
      if nameSize = 0 then return .error unreadable
      else do
        let name ← CString.read (self.base.drop name)
        let (tmpPath, failed) ← strcatS tmpPath pathMax name
        if failed then return .error tooLong else return .ok (self, tmpPath)

/-- The body of the loop of `NXExtractArchive`. -/
def command (target : Target) (locationSize : Nat) (self : Extractor) (tmpPath : Bytes) :
    Fallible Flow := do
  let (cmd, self) ← readInt target self
  if cmd = 100 then do
    let (format, self) ← readInt target self
    if format ≠ 0x584e0001 then return .finished (some "invalid archive format")
    else return .next self tmpPath none
  else if cmd = 200 then do
    match ← appendName target self tmpPath "can't read file name string"
        "can't strcat_s file name string" with
    | .error error => return .finished (some error)
    | .ok (self, tmpPath) => do
        let (fileSize, self) ← readInt target self
        let (fileBuf, self) := getPointer target self fileSize
        match fileBuf with
        | none => return .finished (some "can't read file buffer")
        | some fileBuf => do
            let path ← CString.read tmpPath
            let data ← readSlice self.base fileBuf fileSize
            let tmpPath ← writeAt tmpPath (locationSize + 1) 0
            return .next self tmpPath (some (.writeFile path data))
  else if cmd = 201 then do
    match ← appendName target self tmpPath "can't read dir name string"
        "can't strcat_s dir name string" with
    | .error error => return .finished (some error)
    | .ok (self, tmpPath) => do
        let path ← CString.read tmpPath
        let tmpPath ← writeAt tmpPath (locationSize + 1) 0
        return .next self tmpPath (some (.makeDirectory path))
  else if cmd = 300 then return .finished none
  else return .finished (some "invalid nxarchive command")

/-- The loop of `NXExtractArchive`. -/
def extractLoop (target : Target) (locationSize : Nat) :
    Nat → Extractor → Bytes → Fallible (List Effect × Option String)
  | 0, _, _ => .error .nonTermination
  | fuel + 1, self, tmpPath => do
      match ← command target locationSize self tmpPath with
      | .finished error => return ([], error)
      | .next self tmpPath effect => do
          let (effects, error) ← extractLoop target locationSize fuel self tmpPath
          return (effect.toList ++ effects, error)

/-- `"/"`. -/
def slash : CString := ⟨[0x2f], by decide⟩

/-- `NXExtractArchive`: the effects, and the error if there is one.  A command that does not end the
loop takes at least four bytes, so the loop ends after `size / 4 + 1` commands or never. -/
def extractArchive (target : Target) (stack : Fin pathMax → UInt8) (self : Extractor)
    (location : CString) : Fallible (List Effect × Option String) := do
  let (tmpPath, failed) ← strcpyS (List.ofFn stack) pathMax location
  if failed then return ([], some "strcpy_s failed for location")
  else do
    let (tmpPath, failed) ← strcatS tmpPath pathMax slash
    if failed then return ([], some "strcpy_s failed for slash")
    else extractLoop target location.length (self.base.length / 4 + 1) self tmpPath

/-- `NXExtractArchiveFromBuffer`. -/
def extractArchiveFromBuffer (target : Target) (stack : Fin pathMax → UInt8) (location : CString)
    (buf : Bytes) : Fallible (List Effect × Option String) :=
  extractArchive target stack (fromBuffer buf) location

end NxArchive
end KnShim
