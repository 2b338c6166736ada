import KnShim.Lib.Fallible
import Mathlib.Algebra.Group.Nat.Defs
import Mathlib.Data.List.Defs

/-!
# Dict — the blob-to-blob hash table of `hashtable.h`

The functions follow the C text.  A blob is a heap block: `id` is the identity of the block, so two
pointers are equal exactly when the blobs are, identity included.  `Blob.data_length` and
`Blob.hash_data` record that `KH_CreateBlob` is the only place where blobs are made.

The two arrays of a dictionary are lists.  Every access to them is checked, so a run that is `.ok`
stays inside them.  `free` on blobs is recorded: each call returns the blobs it released, in order.
`malloc` is an input: `TableAlloc` says which of the two allocations of `KH_ResizeDict` succeed.
-/

namespace KnShim
namespace HashTable

open Lib

/-! ## Blobs -/

def hashStep (hash : UInt32) (byte : UInt8) : UInt32 :=
  ((hash <<< 5) + hash) ^^^ byte.toUInt32

/-- `KH_Hash` (DJB2). -/
def hash (buffer : List UInt8) : UInt32 :=
  buffer.foldl hashStep 5381

/-- `KH_Blob`. -/
structure Blob where
  id : Nat
  length : Nat
  hash : UInt32
  data : List UInt8
  data_length : data.length = length
  hash_data : hash = HashTable.hash data
  deriving DecidableEq

/-- The blob that `KH_CreateBlob` fills in for the bytes it was given. -/
def Blob.ofBytes (id : Nat) (bytes : List UInt8) : Blob where
  id := id
  length := bytes.length
  hash := HashTable.hash bytes
  data := bytes
  data_length := rfl
  hash_data := rfl

@[simp] theorem Blob.ofBytes_data (id : Nat) (bytes : List UInt8) :
    (Blob.ofBytes id bytes).data = bytes := rfl

/-- Read `length` bytes through a pointer that may be `NULL`. -/
def readBuffer (buffer : Option (List UInt8)) (length : Nat) : Fallible (List UInt8) :=
  if length = 0 then .ok []
  else
    match buffer with
    | none => .error .nullDeref
    | some bytes => if length ≤ bytes.length then .ok (bytes.take length) else .error .outOfBounds

/-- `KH_CreateBlob`; `block` is the block that `malloc` returned, if any. -/
def createBlob (block : Option Nat) (buffer : Option (List UInt8)) (length : Nat) :
    Fallible (Option Blob) :=
  match block with
  | none => .ok none
  | some id => do
      let bytes ← readBuffer buffer length
      return some (Blob.ofBytes id bytes)

/-- `KH_BlobEqual`. -/
def blobEqual (blob1 blob2 : Blob) : Bool :=
  if blob1 = blob2 then true
  else if blob1.hash ≠ blob2.hash ∨ blob1.length ≠ blob2.length then false
  else decide (blob1.data = blob2.data)

/-! ## Dictionaries -/

/-- `KH_HASH_EMPTY`. -/
def hashEmpty : UInt32 := 0xffffffff

/-- `KH_HASH_DELETED`. -/
def hashDeleted : UInt32 := 0xfffffffe

/-- `KH_DictPair`; `none` is `NULL`. -/
structure DictPair where
  key : Option Blob
  value : Option Blob
  deriving DecidableEq

/-- The pair that `memset` to zero leaves. -/
def DictPair.null : DictPair := ⟨none, none⟩

/-- `KH_Dict`. -/
structure Dict where
  slots : List UInt32
  pairs : List DictPair
  dataCount : Nat
  dataAlloced : Nat
  deriving DecidableEq

/-- Which allocations of `KH_ResizeDict` succeed, by the number of elements asked for. -/
structure TableAlloc where
  slots : Nat → Bool
  pairs : Nat → Bool

/-- Both allocations for a table of `n` slots succeed. -/
def TableAlloc.grants (alloc : TableAlloc) (n : Nat) : Bool := alloc.slots n && alloc.pairs n

/-- An allocator that never fails. -/
def TableAlloc.always : TableAlloc := ⟨fun _ => true, fun _ => true⟩

/-- An allocator that refuses tables of more than `limit` slots. -/
def TableAlloc.upTo (limit : Nat) : TableAlloc :=
  ⟨fun n => decide (n ≤ limit), fun n => decide (n ≤ limit)⟩

/-- What a call leaves: the dictionary, the blobs it released, and its return value. -/
structure Outcome (α : Type) where
  dict : Dict
  released : List Blob
  result : α

/-- `KH_BlobStartingIndexForSize`; `size - 1` is all ones when `size` is 0. -/
def blobStartingIndexForSize (hash : UInt32) (size : Nat) : Nat :=
  if size = 0 then hash.toNat else hash.toNat &&& (size - 1)

/-- The loop of `KH_InsertSlot`.  The slots do not change while it looks, and `nslots` steps visit
each of them, so a walk that has not ended after `nslots` steps never ends. -/
def insertSlotLoop (slots : List UInt32) (nslots : Nat) (index : UInt32) :
    Nat → Nat → Fallible (List UInt32)
  | 0, _ => .error .nonTermination
  | fuel + 1, slotIndex => do
      let slot ← readAt slots slotIndex
      if slot = hashEmpty ∨ slot = hashDeleted then writeAt slots slotIndex index
      else insertSlotLoop slots nslots index fuel (((slotIndex + 1) % 2 ^ 32) &&& (nslots - 1))

/-- `KH_InsertSlot`. -/
def insertSlot (slots : List UInt32) (nslots : Nat) (hash : UInt32) (index : UInt32) :
    Fallible (List UInt32) :=
  insertSlotLoop slots nslots index nslots (blobStartingIndexForSize hash nslots)

/-- The size that `KH_ResizeDict` asks for. -/
def Dict.newSize (self : Dict) : Nat :=
  if self.dataAlloced ≠ 0 then 2 * self.dataAlloced else 8

/-- The copy loop of `KH_ResizeDict` over the old pairs, up to the first one with a `NULL`. -/
def resizeCopy (newSize : Nat) :
    List DictPair → List UInt32 → List DictPair → Nat → Fallible (List UInt32 × List DictPair × Nat)
  | [], newSlots, newPairs, j => .ok (newSlots, newPairs, j)
  | pair :: rest, newSlots, newPairs, j =>
      match pair.key, pair.value with
      | some key, some value => do
          let newPairs ← writeAt newPairs j ⟨some key, some value⟩
          let newSlots ← insertSlot newSlots newSize key.hash (UInt32.ofNat j)
          resizeCopy newSize rest newSlots newPairs (j + 1)
      | _, _ => .ok (newSlots, newPairs, j)

/-- `KH_ResizeDict`; `none` when an allocation failed. -/
def resizeDict (alloc : TableAlloc) (self : Dict) : Fallible (Option Dict) :=
  if alloc.grants self.newSize then do
    let (newSlots, newPairs, j) ←
      resizeCopy self.newSize self.pairs (List.replicate self.newSize hashEmpty)
        (List.replicate self.newSize DictPair.null) 0
    return some ⟨newSlots, newPairs, j, self.newSize⟩
  else
    .ok none

/-- The rest of `KH_DictInsert`, when there is room for one more pair. -/
def dictPlace (self : Dict) (key : Blob) (value : Option Blob) : Fallible Dict := do
  let pairs ← writeAt self.pairs self.dataCount ⟨some key, value⟩
  let slots ← insertSlot self.slots self.dataAlloced key.hash (UInt32.ofNat self.dataCount)
  return { self with pairs := pairs, slots := slots, dataCount := self.dataCount + 1 }

/-- The load that makes `KH_DictInsert` resize. -/
def Dict.full (self : Dict) : Prop :=
  self.dataCount ≥ (self.dataAlloced >>> 1) + (self.dataAlloced >>> 3)

instance (self : Dict) : Decidable self.full :=
  inferInstanceAs (Decidable (_ ≥ _))

/-- `KH_DictInsert`. -/
def dictInsert (alloc : TableAlloc) (self : Dict) (key : Blob) (value : Option Blob) :
    Fallible (Dict × Bool) :=
  if self.full then do
    match ← resizeDict alloc self with
    | none => return (self, false)
    | some resized => do
        let self ← dictPlace resized key value
        return (self, true)
  else do
    let self ← dictPlace self key value
    return (self, true)

/-- `KH_DictChange`. -/
def dictChange (self : Dict) (index : Nat) (value : Option Blob) :
    Fallible (Dict × List Blob) := do
  let pair ← readAt self.pairs index
  let pairs ← writeAt self.pairs index { pair with value := value }
  return ({ self with pairs := pairs }, pair.value.toList)

/-- The loop of `KH_DictLookupIndex`, with `fuel` steps left at step `i`. -/
def lookupLoop (self : Dict) (key : Blob) (slotIndex : Nat) : Nat → Nat → Fallible (Option Nat)
  | 0, _ => .ok none
  | fuel + 1, i => do
      let slot ← readAt self.slots ((slotIndex + i) &&& (self.dataAlloced - 1))
      if slot = hashEmpty then .ok none
      else if slot = hashDeleted then lookupLoop self key slotIndex fuel (i + 1)
      else do
        let pair ← readAt self.pairs slot.toNat
        match pair.key with
        | none => .error .nullDeref
        | some other =>
            if blobEqual key other then .ok (some slot.toNat)
            else lookupLoop self key slotIndex fuel (i + 1)

/-- `KH_DictLookupIndex`; `none` is `KH_NOT_FOUND`. -/
def dictLookupIndex (self : Dict) (key : Blob) : Fallible (Option Nat) :=
  lookupLoop self key (blobStartingIndexForSize key.hash self.dataAlloced) self.dataAlloced 0

/-- The move loop of `KH_DictRemove`, with `fuel` steps left at step `i`. -/
def shiftPairs : Nat → Nat → List DictPair → Fallible (List DictPair)
  | 0, _, pairs => .ok pairs
  | fuel + 1, i, pairs => do
      let pair ← readAt pairs i
      let pairs ← writeAt pairs (i - 1) pair
      shiftPairs fuel (i + 1) pairs

/-- The body of the loop of `KH_DictRemove` that fixes up the slots. -/
def fixSlot (index : Nat) (slot : UInt32) : UInt32 :=
  if slot = hashDeleted ∨ slot = hashEmpty then slot
  else if slot.toNat > index then slot - 1
  else if slot.toNat = index then hashDeleted
  else slot

/-- `KH_DictRemove`. -/
def dictRemove (self : Dict) (index : Nat) : Fallible (Dict × List Blob) := do
  let pair ← readAt self.pairs index
  let pairs ← shiftPairs (self.dataCount - (index + 1)) (index + 1) self.pairs
  return ({ self with
      pairs := pairs
      dataCount := self.dataCount - 1
      slots := self.slots.map (fixSlot index) },
    pair.key.toList ++ pair.value.toList)

/-! ## The exposed functions -/

/-- `KH_CreateDict`. -/
def createDict : Dict := ⟨[], [], 0, 0⟩

/-- The loop of `KH_ReleaseDict`, with `fuel` pairs left from pair `i` on: the blobs it frees. -/
def releasePairs (dict : Dict) : Nat → Nat → Fallible (List Blob)
  | 0, _ => .ok []
  | fuel + 1, i => do
      let pair ← readAt dict.pairs i
      let rest ← releasePairs dict fuel (i + 1)
      return pair.key.toList ++ pair.value.toList ++ rest

/-- `KH_ReleaseDict`. -/
def releaseDict (dict : Dict) : Fallible (List Blob) := releasePairs dict dict.dataCount 0

/-- `KH_DictSet`. -/
def dictSet (alloc : TableAlloc) (self : Dict) (key : Blob) (value : Option Blob) :
    Fallible (Outcome Bool) := do
  match ← dictLookupIndex self key with
  | none => do
      let (self, ok) ← dictInsert alloc self key value
      return ⟨self, [], ok⟩
  | some index => do
      let (self, released) ← dictChange self index value
      return ⟨self, released ++ [key], true⟩

/-- `KH_DictGet`. -/
def dictGet (self : Dict) (key : Blob) : Fallible (Outcome (Option Blob)) := do
  match ← dictLookupIndex self key with
  | none => return ⟨self, [key], none⟩
  | some index => do
      let pair ← readAt self.pairs index
      return ⟨self, [key], pair.value⟩

/-- `KH_DictHas`. -/
def dictHas (self : Dict) (key : Blob) : Fallible (Outcome Bool) := do
  let index ← dictLookupIndex self key
  return ⟨self, [key], index.isSome⟩

/-- `KH_DictDelete`. -/
def dictDelete (self : Dict) (key : Blob) : Fallible (Outcome Bool) := do
  match ← dictLookupIndex self key with
  | none => return ⟨self, [key], false⟩
  | some index => do
      let (self, released) ← dictRemove self index
      return ⟨self, released ++ [key], true⟩

/-- `KH_DictKeyIter`. -/
def dictKeyIter (self : Dict) (index : Nat) : Fallible (Option Blob) :=
  if index < self.dataCount then do
    let pair ← readAt self.pairs index
    return pair.key
  else
    .ok none

/-- `KH_DictValueIter`. -/
def dictValueIter (self : Dict) (index : Nat) : Fallible (Option Blob) :=
  if index < self.dataCount then do
    let pair ← readAt self.pairs index
    return pair.value
  else
    .ok none

/-- `KH_DictLen`. -/
def dictLen (self : Dict) : Nat := self.dataCount

end HashTable
end KnShim
