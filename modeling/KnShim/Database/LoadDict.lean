import KnShim.Database.SaveDict
import KnShim.HashTable.Calls

/-!
# LoadDict — reading the database of `reg.c`

The model keeps what the C code gets from a short read: `ReadInt` leaves an indeterminate value, and
`ReadData` returns `NULL`.  Using either is a fault.  Each reader has two lemmas: it reads back what
was written (`readInt_toLE`, `readData_append`), and what it reads was written (`readInt_exact`,
`readData_exact`).

`loadDict_correct_iff` says for which files `LoadDict` does without such a value: those with a
foreign first word, and the complete databases.
-/

namespace KnShim
namespace Database

open Lib HashTable

/-! ## Reading -/

/-- Which allocations succeed, by size: read buffers, blobs, and tables. -/
structure Heap where
  buffer : Nat → Bool
  blob : Nat → Bool
  table : TableAlloc

/-- Read buffers and blobs are granted; tables may be refused. -/
def Heap.roomy (table : TableAlloc) : Heap := ⟨fun _ => true, fun _ => true, table⟩

/-- `fread`: what was read, and the rest of the file. -/
def fread (size : Nat) (file : Bytes) : Bytes × Bytes := (file.take size, file.drop size)

/-- `ReadInt`; `none` is the indeterminate value that a short read leaves. -/
def readInt (file : Bytes) : Option Nat × Bytes :=
  let (data, file) := fread 4 file
  (if data.length = 4 then some (ofLE data) else none, file)

/-- The use of a value that may be indeterminate. -/
def determinate (data : Option Nat) : Fallible Nat :=
  match data with
  | some data => .ok data
  | none => .error .uninitialized

/-- `ReadData`; `none` is `NULL`. -/
def readData (heap : Heap) (file : Bytes) (size : Nat) : Option Bytes × Bytes :=
  if heap.buffer size then
    let (data, file) := fread size file
    (if data.length = size then some data else none, file)
  else
    (none, file)

/-- `KH_CreateBlob` in block `id`, if it is granted. -/
def createBlobIn (heap : Heap) (id : Nat) (buffer : Option Bytes) (length : Nat) :
    Fallible (Option Blob) :=
  createBlob (if heap.blob length then some id else none) buffer length

/-- The body of the loop of `LoadDict`: the dictionary, the blobs created, and the rest of the
file.  `KH_DictSet` dereferences its key at once. -/
def loadPair (heap : Heap) (dict : Dict) (id : Nat) (file : Bytes) :
    Fallible (Dict × List Blob × Bytes) := do
  let (keyLen, file) := readInt file
  let keyLen ← determinate keyLen
  let (keyData, file) := readData heap file keyLen
  let (valLen, file) := readInt file
  let valLen ← determinate valLen
  let (valData, file) := readData heap file valLen
  let key ← createBlobIn heap id keyData keyLen
  let value ← createBlobIn heap (id + 1) valData valLen
  let key ← deref key
  let o ← dictSet heap.table dict key value
  return (o.dict, key :: value.toList, file)

/-- The loop of `LoadDict`, with `fuel` records to go; `id` is the next block. -/
def loadPairs (heap : Heap) : Nat → Dict → Nat → Bytes → Fallible (Dict × List Blob)
  | 0, dict, _, _ => .ok (dict, [])
  | fuel + 1, dict, id, file => do
      let (dict, created, file) ← loadPair heap dict id file
      let (dict, rest) ← loadPairs heap fuel dict (id + 2) file
      return (dict, created ++ rest)

/-- What `LoadDict` leaves: the dictionary, the blobs that it created, and its return value. -/
structure Loaded where
  dict : Dict
  created : List Blob
  result : Bool

/-- `LoadDict`; `file` is what `fopen` opened, if anything, and `id` the next block. -/
def loadDict (heap : Heap) (dict : Dict) (id : Nat) (file : Option Bytes) : Fallible Loaded :=
  match file with
  | none => .ok ⟨dict, [], false⟩
  | some file => do
      let (magic, file) := readInt file
      let magic ← determinate magic
      if magic ≠ databaseMagic then
        return ⟨dict, [], false⟩
      else do
        let (length, file) := readInt file
        let length ← determinate length
        let (dict, created) ← loadPairs heap length dict id file
        return ⟨dict, created, true⟩

/-! ## The readers -/

theorem readInt_eq (file : Bytes) :
    readInt file =
      (if (file.take 4).length = 4 then some (ofLE (file.take 4)) else none, file.drop 4) := rfl

theorem readInt_toLE {n : Nat} (h : n < 2 ^ 32) (rest : Bytes) :
    readInt (toLE 4 n ++ rest) = (some n, rest) := by
  have hlen : (toLE 4 n).length = 4 := toLE_length 4 n
  have hval : ofLE (toLE 4 n) = n := ofLE_toLE_of_lt h
  have htake : (toLE 4 n ++ rest).take 4 = toLE 4 n := List.take_left' hlen
  have hdrop : (toLE 4 n ++ rest).drop 4 = rest := List.drop_left' hlen
  simp only [readInt_eq, htake, hdrop, hlen, hval, if_true]

theorem readInt_exact {file rest : Bytes} {n : Nat} (h : readInt file = (some n, rest)) :
    n < 2 ^ 32 ∧ file = toLE 4 n ++ rest := by
  simp only [readInt_eq, Prod.mk.injEq] at h
  rcases h with ⟨hread, rfl⟩
  -- four bytes came back, or `fread` says that the item is incomplete
  by_cases hlen : (file.take 4).length = 4
  · rw [if_pos hlen] at hread
    have hn : ofLE (file.take 4) = n := Option.some.inj hread
    constructor
    · calc
        n = ofLE (file.take 4) := hn.symm
        _ < 256 ^ (file.take 4).length := ofLE_lt _
        _ = 2 ^ 32 := by rw [hlen]; rfl
    -- the four bytes are the encoding of the number they are read as
    · have hbytes : toLE 4 n = file.take 4 := by
        have hback := toLE_ofLE (file.take 4)
        rwa [hlen, hn] at hback
      rw [hbytes, List.take_append_drop]
  · rw [if_neg hlen] at hread
    cases hread

/-- A word is read from a file exactly when it has four bytes. -/
theorem readInt_isSome (file : Bytes) : (readInt file).1.isSome ↔ 4 ≤ file.length := by
  have hlen : (file.take 4).length = 4 ↔ 4 ≤ file.length := by
    rw [List.length_take]
    exact min_eq_left_iff
  rw [readInt_eq, ← hlen]
  by_cases h : (file.take 4).length = 4
  · rw [if_pos h]
    exact iff_of_true rfl h
  · rw [if_neg h]
    exact iff_of_false Bool.false_ne_true h

variable {table : TableAlloc}

theorem readData_eq (file : Bytes) (size : Nat) :
    readData (.roomy table) file size =
      (if (file.take size).length = size then some (file.take size) else none,
        file.drop size) := rfl

theorem readData_append (data rest : Bytes) :
    readData (.roomy table) (data ++ rest) data.length = (some data, rest) := by
  simp [readData_eq]

theorem readData_exact {file rest data : Bytes} {size : Nat}
    (h : readData (.roomy table) file size = (some data, rest)) :
    data.length = size ∧ file = data ++ rest := by
  simp only [readData_eq, Prod.mk.injEq] at h
  rcases h with ⟨hread, rfl⟩
  by_cases hlen : (file.take size).length = size
  · rw [if_pos hlen] at hread
    obtain rfl := Option.some.inj hread
    exact ⟨hlen, (List.take_append_drop size file).symm⟩
  · rw [if_neg hlen] at hread
    cases hread

theorem createBlobIn_data (id : Nat) (data : Bytes) :
    createBlobIn (.roomy table) id (some data) data.length = .ok (some (.ofBytes id data)) := by
  by_cases hzero : data.length = 0
  · have hnil : data = [] := List.eq_nil_of_length_eq_zero hzero
    simp [createBlobIn, Heap.roomy, createBlob, readBuffer, hnil]
  · simp [createBlobIn, Heap.roomy, createBlob, readBuffer, hzero]

/-- A blob that is created from what `ReadData` returned holds bytes of the file. -/
theorem createBlobIn_readData {file : Bytes} {id size : Nat} {blob : Option Blob}
    (h : createBlobIn (.roomy table) id (readData (.roomy table) file size).1 size = .ok blob) :
    ∃ data, blob = some (.ofBytes id data) ∧ data.length = size ∧
      file = data ++ (readData (.roomy table) file size).2 := by
  cases hread : readData (.roomy table) file size with
  | mk buffer rest =>
      rw [hread] at h
      -- the buffer is there exactly when all bytes were
      cases buffer with
      | some data =>
          rcases readData_exact hread with ⟨rfl, hfile⟩
          rw [createBlobIn_data] at h
          exact ⟨data, (Except.ok.inj h).symm, rfl, hfile⟩
      | none =>
          -- a short read, so `size` is not 0 and the `NULL` is dereferenced
          exfalso
          have hzero : size ≠ 0 := by
            rintro rfl
            simp [readData_eq] at hread
          simp [createBlobIn, Heap.roomy, createBlob, readBuffer, hzero] at h

/-! ## The records -/

/-- The bytes of one record. -/
def pairBytes (entry : Bytes × Bytes) : Bytes := (pairChunks entry).flatten

theorem pairBytes_append (key value rest : Bytes) :
    pairBytes (key, value) ++ rest =
      toLE 4 key.length ++ (key ++ (toLE 4 value.length ++ (value ++ rest))) := by
  simp [pairBytes, pairChunks]

/-- The lengths fit their fields. -/
def Fits (entry : Bytes × Bytes) : Prop := entry.1.length < 2 ^ 32 ∧ entry.2.length < 2 ^ 32

/-- One record that is there is loaded. -/
theorem loadPair_pairBytes (dict : Dict) (id : Nat) {key value : Bytes} (h : Fits (key, value))
    (rest : Bytes) :
    loadPair (.roomy table) dict id (pairBytes (key, value) ++ rest) = (do
      let o ← dictSet table dict (.ofBytes id key) (some (.ofBytes (id + 1) value))
      return (o.dict, [.ofBytes id key, .ofBytes (id + 1) value], rest)) := by
  rw [pairBytes_append, loadPair]
  simp only [readInt_toLE h.1, readInt_toLE h.2, determinate, Fallible.ok_bind, readData_append,
    createBlobIn_data, deref]
  rfl

/-- The steps of the body of the loop, one after the other. -/
theorem loadPair_eq (heap : Heap) (dict : Dict) (id : Nat) (file : Bytes) :
    loadPair heap dict id file =
      determinate (readInt file).1 >>= fun keyLen =>
      determinate (readInt (readData heap (readInt file).2 keyLen).2).1 >>= fun valLen =>
      createBlobIn heap id (readData heap (readInt file).2 keyLen).1 keyLen >>= fun key =>
      createBlobIn heap (id + 1) (readData heap
        (readInt (readData heap (readInt file).2 keyLen).2).2 valLen).1 valLen >>= fun value =>
      deref key >>= fun key =>
      dictSet heap.table dict key value >>= fun o =>
      .ok (o.dict, key :: value.toList, (readData heap
        (readInt (readData heap (readInt file).2 keyLen).2).2 valLen).2) := rfl

theorem isSome_of_determinate {data : Option Nat} {n : Nat} (h : determinate data = .ok n) :
    data.isSome := by
  cases data with
  | none => cases h
  | some _ => rfl

/-- A word that is used was read. -/
theorem readInt_of_determinate {file : Bytes} {n : Nat} (h : determinate (readInt file).1 = .ok n) :
    n < 2 ^ 32 ∧ file = toLE 4 n ++ (readInt file).2 := by
  cases hread : readInt file with
  | mk data rest =>
      rw [hread] at h
      cases data with
      | none => cases h
      | some n =>
          cases h
          exact readInt_exact hread

/-- One record that is loaded was there. -/
theorem loadPair_exact {dict dict' : Dict} {id : Nat} {file rest : Bytes} {created : List Blob}
    (h : loadPair (.roomy table) dict id file = .ok (dict', created, rest)) :
    ∃ key value, Fits (key, value) ∧ file = pairBytes (key, value) ++ rest ∧
      created = [.ofBytes id key, .ofBytes (id + 1) value] := by
  rw [loadPair_eq] at h
  -- each of the two words was read and each of the two buffers was there
  rcases Fallible.bind_eq_ok.mp h with ⟨keyLen, hkeyLen, h⟩
  rcases Fallible.bind_eq_ok.mp h with ⟨valLen, hvalLen, h⟩
  rcases Fallible.bind_eq_ok.mp h with ⟨keyBlob, hkey, h⟩
  rcases Fallible.bind_eq_ok.mp h with ⟨valueBlob, hvalue, h⟩
  rcases readInt_of_determinate hkeyLen with ⟨hkeyLt, hfile₁⟩
  rcases readInt_of_determinate hvalLen with ⟨hvalLt, hfile₂⟩
  rcases createBlobIn_readData hkey with ⟨key, rfl, rfl, hfile₃⟩
  rcases createBlobIn_readData hvalue with ⟨value, rfl, rfl, hfile₄⟩
  rw [deref, Fallible.ok_bind] at h
  rcases Fallible.bind_eq_ok.mp h with ⟨o, _, h⟩
  cases h
  refine ⟨key, value, ⟨hkeyLt, hvalLt⟩, ?_, rfl⟩
  rw [pairBytes_append, ← hfile₄, ← hfile₂, ← hfile₃, ← hfile₁]

/-- The records that are loaded were there, and the blobs hold their keys and values. -/
theorem loadPairs_exact {fuel : Nat} {dict dict' : Dict} {id : Nat} {file : Bytes}
    {created : List Blob}
    (h : loadPairs (.roomy table) fuel dict id file = .ok (dict', created)) :
    ∃ (entries : List (Bytes × Bytes)) (rest : Bytes), entries.length = fuel ∧
      (∀ e ∈ entries, Fits e) ∧
      file = entries.flatMap pairBytes ++ rest ∧
      ∀ blob ∈ created, ∃ e ∈ entries, blob.data = e.1 ∨ blob.data = e.2 := by
  -- induction on the records to go; the file shrinks by one record each time
  induction fuel generalizing dict id file created with
  | zero =>
      cases h
      exact ⟨[], file, rfl, by simp, rfl, by simp⟩
  | succ fuel ih =>
      rcases Fallible.bind_eq_ok.mp h with ⟨⟨dict₁, created₁, file₁⟩, hpair, h⟩
      rcases Fallible.bind_eq_ok.mp h with ⟨⟨dict₂, created₂⟩, hrest, h⟩
      cases h
      rcases loadPair_exact hpair with ⟨key, value, hfits, rfl, rfl⟩
      rcases ih hrest with ⟨entries, rest, hlen, hall, rfl, hblobs⟩
      refine ⟨(key, value) :: entries, rest, by rw [List.length_cons, hlen], ?_, ?_, ?_⟩
      · intro e he
        rcases List.mem_cons.mp he with rfl | he
        · exact hfits
        · exact hall e he
      · rw [List.flatMap_cons, List.append_assoc]
      -- a blob is one of this record's two or one of the later ones
      · intro blob hblob
        rcases List.mem_append.mp hblob with hnew | hold
        · refine ⟨(key, value), List.mem_cons_self, ?_⟩
          simp only [List.mem_cons, List.not_mem_nil, or_false] at hnew
          rcases hnew with rfl | rfl
          · exact Or.inl rfl
          · exact Or.inr rfl
        · rcases hblobs blob hold with ⟨e, he, hdata⟩
          exact ⟨e, List.mem_cons_of_mem _ he, hdata⟩

/-- The records that are there are loaded. -/
theorem loadPairs_flatMap (table : TableAlloc) (entries : List (Bytes × Bytes))
    (hfits : ∀ e ∈ entries, Fits e) {dict : Dict} (h : dict.Safe)
    (hcount : dict.dataCount + entries.length ≤ 2 ^ 32) (id : Nat)
    (rest : Bytes) :
    ∃ r, loadPairs (.roomy table) entries.length dict id (entries.flatMap pairBytes ++ rest) =
      .ok r := by
  -- induction on the records; the dictionary stays safe along the way
  induction entries generalizing dict id with
  | nil => exact ⟨_, rfl⟩
  | cons e entries ih =>
      rcases e with ⟨key, value⟩
      rw [List.length_cons] at hcount
      rcases h.dictSet_safe (by omega) table (.ofBytes id key)
        (some (.ofBytes (id + 1) value)) with ⟨o, ho, hsafe, hgrown⟩
      rcases ih (fun e he => hfits e (List.mem_cons_of_mem _ he)) hsafe (by omega) (id + 2) with
        ⟨r, hr⟩
      refine ⟨(r.1, [.ofBytes id key, .ofBytes (id + 1) value] ++ r.2), ?_⟩
      rw [List.flatMap_cons, List.append_assoc, List.length_cons, loadPairs,
        loadPair_pairBytes _ _ (hfits _ List.mem_cons_self), ho]
      simp [hr]

/-! ## Whole files -/

/-- The magic, the count, and that many records; anything may follow. -/
def Complete (contents : Bytes) : Prop :=
  ∃ entries rest, entries.length < 2 ^ 32 ∧ (∀ e ∈ entries, Fits e) ∧
    contents = serialize entries ++ rest

theorem serialize_append (entries : List (Bytes × Bytes)) (rest : Bytes) :
    serialize entries ++ rest =
      toLE 4 databaseMagic ++ (toLE 4 entries.length ++ (entries.flatMap pairBytes ++ rest)) := by
  have hpairs : (entries.flatMap pairChunks).flatten = entries.flatMap pairBytes := by
    induction entries with
    | nil => rfl
    | cons e entries ih => simp [pairBytes, ih]
  simp [serialize, chunks, hpairs]

theorem Complete.magic {contents : Bytes} (h : Complete contents) :
    contents.take 4 = toLE 4 databaseMagic := by
  rcases h with ⟨entries, rest, _, _, rfl⟩
  rw [serialize_append]
  exact List.take_left' (toLE_length 4 _)

/-- A key or value of a record stands in the file. -/
theorem isInfix_serialize {entries : List (Bytes × Bytes)} {e : Bytes × Bytes} (he : e ∈ entries)
    (rest : Bytes) :
    e.1 <:+: serialize entries ++ rest ∧ e.2 <:+: serialize entries ++ rest := by
  -- the record is a piece of the records, these a piece of the file
  have hpair : pairBytes e <:+: entries.flatMap pairBytes := by
    rcases List.append_of_mem he with ⟨before, after, rfl⟩
    exact ⟨before.flatMap pairBytes, after.flatMap pairBytes, by simp⟩
  have hfile : pairBytes e <:+: serialize entries ++ rest := by
    rw [serialize_append]
    refine hpair.trans ⟨toLE 4 databaseMagic ++ toLE 4 entries.length, rest, ?_⟩
    simp only [List.append_assoc]
  have hkey : e.1 <:+: pairBytes e :=
    ⟨toLE 4 e.1.length, toLE 4 e.2.length ++ e.2, by simp [pairBytes, pairChunks]⟩
  have hvalue : e.2 <:+: pairBytes e :=
    ⟨toLE 4 e.1.length ++ (e.1 ++ toLE 4 e.2.length), [], by simp [pairBytes, pairChunks]⟩
  exact ⟨hkey.trans hfile, hvalue.trans hfile⟩

theorem loadDict_foreign {heap : Heap} {dict : Dict} {id n : Nat} {contents : Bytes}
    (hread : (readInt contents).1 = some n) (h : n ≠ databaseMagic) :
    loadDict heap dict id (some contents) = .ok ⟨dict, [], false⟩ := by
  change (determinate (readInt contents).1 >>= fun magic => _) = _
  rw [hread, determinate, Fallible.ok_bind, if_pos h]
  rfl

theorem loadDict_magic {heap : Heap} {dict : Dict} {id : Nat} {rest : Bytes} :
    loadDict heap dict id (some (toLE 4 databaseMagic ++ rest)) = (do
      let length ← determinate (readInt rest).1
      let (dict, created) ← loadPairs heap length dict id (readInt rest).2
      return ⟨dict, created, true⟩) := by
  have hmagic : databaseMagic < 2 ^ 32 := by decide
  simp only [loadDict, readInt_toLE hmagic, determinate, Fallible.ok_bind]
  rfl

/-- A complete database is loaded, and every blob holds bytes of the file. -/
theorem loadDict_complete (table : TableAlloc) {contents : Bytes} (h : Complete contents) (id : Nat) :
    ∃ o, loadDict (.roomy table) createDict id (some contents) = .ok o ∧ o.result = true ∧
      ∀ blob ∈ o.created, blob.data <:+: contents := by
  rcases h with ⟨entries, rest, hlen, hfits, rfl⟩
  rcases loadPairs_flatMap table entries hfits createDict_safe
    (by simpa [createDict] using hlen.le) id rest with ⟨⟨dict, created⟩, hpairs⟩
  refine ⟨⟨dict, created, true⟩, ?_, rfl, ?_⟩
  · rw [serialize_append, loadDict_magic, readInt_toLE hlen, determinate, Fallible.ok_bind, hpairs]
    rfl
  · intro blob hblob
    -- the records that were read need not be the ones in `h`, but the file is the same
    rcases loadPairs_exact hpairs with ⟨entries', rest', hlen', _, hfile, hblobs⟩
    rcases hblobs blob hblob with ⟨e, he, hdata⟩
    have hsame : serialize entries ++ rest = serialize entries' ++ rest' := by
      rw [serialize_append, serialize_append, hlen', hfile]
    rw [hsame]
    rcases hdata with hdata | hdata
    · rw [hdata]
      exact (isInfix_serialize he rest').1
    · rw [hdata]
      exact (isInfix_serialize he rest').2

/-- `LoadDict` does without values of failed reads, and tells complete files from others, exactly
on files whose first word is there and foreign, and on complete files. -/
theorem loadDict_correct_iff (table : TableAlloc) (id : Nat) (contents : Bytes) :
    (∃ o, loadDict (.roomy table) createDict id (some contents) = .ok o ∧
      (o.result = true ↔ Complete contents) ∧ ∀ blob ∈ o.created, blob.data <:+: contents) ↔
    4 ≤ contents.length ∧ (contents.take 4 = toLE 4 databaseMagic → Complete contents) := by
  constructor
  · rintro ⟨o, ho, hresult, _⟩
    -- the magic was used, so it was read
    have hmagic : ∃ n, determinate (readInt contents).1 = .ok n := by
      rcases Fallible.bind_eq_ok.mp ho with ⟨n, hn, _⟩
      exact ⟨n, hn⟩
    rcases hmagic with ⟨n, hn⟩
    refine ⟨(readInt_isSome contents).mp (isSome_of_determinate hn), fun htake => ?_⟩
    -- behind the magic, `LoadDict` returns nothing but true
    have hcontents : contents = toLE 4 databaseMagic ++ contents.drop 4 := by
      rw [← htake, List.take_append_drop]
    rw [hcontents, loadDict_magic] at ho
    rcases Fallible.bind_eq_ok.mp ho with ⟨length, _, ho⟩
    rcases Fallible.bind_eq_ok.mp ho with ⟨pairs, _, ho⟩
    cases ho
    exact hresult.mp rfl
  · rintro ⟨hlen, hcomplete⟩
    -- the magic decides whether anything is loaded
    by_cases htake : contents.take 4 = toLE 4 databaseMagic
    · rcases loadDict_complete table (hcomplete htake) id with ⟨o, ho, hres, hblobs⟩
      exact ⟨o, ho, iff_of_true hres (hcomplete htake), hblobs⟩
    · rcases Option.isSome_iff_exists.mp ((readInt_isSome contents).mpr hlen) with ⟨n, hread⟩
      -- a word that equals the magic has its four bytes
      have hne : n ≠ databaseMagic := by
        rintro rfl
        rcases readInt_exact (Prod.ext hread rfl : readInt contents = (some _, _)) with ⟨_, hfile⟩
        refine htake ?_
        rw [hfile]
        exact List.take_left' (toLE_length 4 _)
      refine ⟨_, loadDict_foreign hread hne, ?_, by simp⟩
      exact iff_of_false Bool.false_ne_true (fun hc => htake hc.magic)

/-- A database that was cut off behind its count: the length of the first key is used although it
was never read. -/
theorem loadDict_cut_off :
    let contents : Bytes := [0x4b, 0x4e, 0x4f, 0x54, 1, 0, 0, 0]
    loadDict (.roomy .always) createDict 0 (some contents) = .error .uninitialized ∧
      ¬ ∃ o, loadDict (.roomy .always) createDict 0 (some contents) = .ok o ∧
        (o.result = true ↔ Complete contents) ∧ ∀ blob ∈ o.created, blob.data <:+: contents := by
  refine ⟨rfl, ?_⟩
  rintro ⟨o, ho, _⟩
  cases ho

end Database
end KnShim
