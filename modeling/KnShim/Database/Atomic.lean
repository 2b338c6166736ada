import KnShim.Database.SaveDict

/-!
# Atomic — what `SaveDict` leaves at the path of the database

The writes of `SaveDict` are one `fwrite` for each chunk of the serialization (`writeDict_eq`), and
any of them that fails is remembered.  So the temporary file replaces the database only when every
chunk was accepted (`saveDict_keeps`).  Whether the accepted bytes reached the temporary file is
what `fclose` returns, and that is not looked at: `saveDict_replaced_iff` says that the database is
replaced atomically except after a `LateFailure`.
-/

namespace KnShim
namespace Database

open Lib HashTable

/-! ## What there is to save -/

/-- The content of a pair; a `NULL` has none. -/
def entryOf (pair : DictPair) : Bytes × Bytes :=
  ((pair.key.map Blob.data).getD [], (pair.value.map Blob.data).getD [])

/-- The contents of the pairs of a dictionary, in order. -/
def liveEntries (d : Dict) : List (Bytes × Bytes) := (d.pairs.take d.dataCount).map entryOf

/-- Every pair is there, and none has a `NULL`. -/
structure Whole (d : Dict) : Prop where
  count_le : d.dataCount ≤ d.pairs.length
  valued : ∀ pair ∈ d.pairs.take d.dataCount, pair.key ≠ none ∧ pair.value ≠ none

instance (d : Dict) : Decidable (Whole d) :=
  decidable_of_iff
    (d.dataCount ≤ d.pairs.length ∧
      ∀ pair ∈ d.pairs.take d.dataCount, pair.key ≠ none ∧ pair.value ≠ none)
    ⟨fun h => ⟨h.1, h.2⟩, fun h => ⟨h.count_le, h.valued⟩⟩

/-- No blob is empty. -/
def NoneEmpty (entries : List (Bytes × Bytes)) : Prop := ∀ e ∈ entries, e.1 ≠ [] ∧ e.2 ≠ []

variable {d : Dict}

theorem Whole.length_eq (h : Whole d) : (liveEntries d).length = d.dataCount := by
  simp [liveEntries, List.length_take, h.count_le]

/-- The pair that the iterators return. -/
theorem Whole.pair (h : Whole d) {i : Nat} (hi : i < d.dataCount) :
    ∃ key value : Blob, d.pairs[i]? = some ⟨some key, some value⟩ ∧
      (liveEntries d)[i]? = some (key.data, value.data) := by
  have hlt : i < d.pairs.length := lt_of_lt_of_le hi h.count_le
  have hget : (d.pairs.take d.dataCount)[i]? = some d.pairs[i] := by
    rw [List.getElem?_take_of_lt hi, List.getElem?_eq_getElem hlt]
  -- both pointers of the pair are there
  rcases h.valued _ (List.mem_of_getElem? hget) with ⟨hkey, hvalue⟩
  rcases Option.ne_none_iff_exists'.mp hkey with ⟨key, hkey⟩
  rcases Option.ne_none_iff_exists'.mp hvalue with ⟨value, hvalue⟩
  refine ⟨key, value, ?_, ?_⟩
  · rw [List.getElem?_eq_getElem hlt]
    cases hp : d.pairs[i] with
    | mk k v => simp_all
  · rw [liveEntries, List.getElem?_map, hget]
    simp [entryOf, hkey, hvalue]

/-- A dictionary that is not whole has a pair at which an iterator or a dereference faults. -/
theorem exists_bad_of_not_whole (h : ¬ Whole d) :
    ∃ i < d.dataCount, ∀ key value : Blob,
      dictKeyIter d i >>= deref = .ok key → dictValueIter d i >>= deref ≠ .ok value := by
  -- a pair with a `NULL`, or a count that runs off the array
  by_cases hle : d.dataCount ≤ d.pairs.length
  · have hbad : ∃ pair ∈ d.pairs.take d.dataCount, ¬ (pair.key ≠ none ∧ pair.value ≠ none) := by
      by_contra hall
      refine h ⟨hle, fun pair hmem => ?_⟩
      by_contra hpair
      exact hall ⟨pair, hmem, hpair⟩
    rcases hbad with ⟨pair, hmem, hpair⟩
    rcases List.getElem?_of_mem hmem with ⟨i, hi⟩
    have hlt : i < d.dataCount := by
      have := (List.getElem?_eq_some_iff.mp hi).1
      simp only [List.length_take] at this
      omega
    rw [List.getElem?_take_of_lt hlt] at hi
    refine ⟨i, hlt, fun key value hkey hvalue => hpair ?_⟩
    simp only [dictKeyIter, dictValueIter, hlt, if_true, readAt_eq_ok.mpr hi, Fallible.ok_bind,
      Fallible.pure_eq] at hkey hvalue
    -- a `NULL` that an iterator returns is dereferenced
    constructor
    · intro hnone
      rw [hnone] at hkey
      cases hkey
    · intro hnone
      rw [hnone] at hvalue
      cases hvalue
  · have hlt : d.pairs.length < d.dataCount := Nat.lt_of_not_le hle
    refine ⟨d.pairs.length, hlt, fun key value hkey => ?_⟩
    simp [dictKeyIter, hlt, readAt] at hkey

/-! ## The writes are the chunks -/

/-- Write chunks one after the other and remember whether one of them failed. -/
def writeChunks : List Bytes → Bool → Stream → Proc (Bool × Stream)
  | [], error, file => return (error, file)
  | chunk :: rest, error, file => do
      let (e, file) ← writeData file chunk.length chunk
      writeChunks rest (error || e) file

theorem writeInt_eq (file : Stream) (n : Nat) :
    writeInt file n = writeData file (toLE 4 n).length (toLE 4 n) := by
  rw [toLE_length]
  rfl

theorem writeChunks_append (xs ys : List Bytes) (error : Bool) (file : Stream) :
    writeChunks (xs ++ ys) error file =
      writeChunks xs error file >>= fun r => writeChunks ys r.1 r.2 := by
  induction xs generalizing error file with
  | nil => simp [writeChunks]
  | cons x xs ih => simp [writeChunks, ih]

theorem writeBlob_eq (file : Stream) (blob : Blob) (error : Bool) :
    writeBlob file blob error =
      writeChunks [toLE 4 blob.data.length, blob.data] error file := by
  simp [writeBlob, writeChunks, writeInt_eq, blob.data_length]

/-- From step `i` on, the loop writes the chunks of the pairs that are left. -/
theorem writePairs_eq (h : Whole d) (fuel i : Nat) (hi : i + fuel = d.dataCount) (error : Bool)
    (file : Stream) :
    writePairs d fuel i error file =
      writeChunks (((liveEntries d).drop i).flatMap pairChunks) error file := by
  -- induction on the pairs left
  induction fuel generalizing i error file with
  | zero =>
      have hdrop : (liveEntries d).drop i = [] :=
        List.drop_eq_nil_of_le (by rw [h.length_eq]; omega)
      rw [hdrop]
      rfl
  | succ fuel ih =>
      have hlt : i < d.dataCount := by omega
      rcases h.pair hlt with ⟨key, value, hpair, hentry⟩
      have hdrop : (liveEntries d).drop i =
          (key.data, value.data) :: (liveEntries d).drop (i + 1) := by
        rcases List.getElem?_eq_some_iff.mp hentry with ⟨hlen, hget⟩
        rw [← hget, List.getElem_cons_drop]
      have hkey : dictKeyIter d i >>= deref = .ok key := by
        simp [dictKeyIter, hlt, readAt_eq_ok.mpr hpair, deref]
      have hvalue : dictValueIter d i >>= deref = .ok value := by
        simp [dictValueIter, hlt, readAt_eq_ok.mpr hpair, deref]
      -- a pair is two blobs of two chunks each
      have hchunks : ((key.data, value.data) :: (liveEntries d).drop (i + 1)).flatMap pairChunks =
          [toLE 4 key.data.length, key.data] ++ ([toLE 4 value.data.length, value.data] ++
            ((liveEntries d).drop (i + 1)).flatMap pairChunks) := by
        simp [pairChunks]
      rw [hdrop, hchunks, writeChunks_append]
      simp only [writeChunks_append [toLE 4 value.data.length, value.data]]
      rw [writePairs, hkey, hvalue]
      change (writeBlob file key error >>= fun r => writeBlob r.2 value r.1 >>= fun r' =>
        writePairs d fuel (i + 1) r'.1 r'.2) = _
      simp only [writeBlob_eq]
      -- whatever the two blobs leave, the rest is written from there
      refine bind_congr (fun r => bind_congr (fun r' => ?_))
      exact ih (i + 1) (by omega) r'.1 r'.2

theorem writeDict_eq (h : Whole d) (file : Stream) :
    writeDict d file = writeChunks (chunks (liveEntries d)) false file := by
  have hcount : dictLen d = (liveEntries d).length := h.length_eq.symm
  have hpairs := fun error file => writePairs_eq h d.dataCount 0 (Nat.zero_add _) error file
  simp only [List.drop_zero] at hpairs
  simp [writeDict, chunks, writeChunks, writeInt_eq, hcount, h.length_eq, hpairs]

/-! ## Runs of the writes -/

/-- One chunk: accepted, refused, or the last thing the process did. -/
theorem writeData_apply (chunk : Bytes) (file : Stream) (script : Script) (w : World) :
    writeData file chunk.length chunk script w =
      match script w.clock with
      | .done =>
          (.ok (chunk.isEmpty, { file with accepted := file.accepted ++ chunk }), w.later 1)
      | .fails kept =>
          (.ok (true, { file with accepted := file.accepted ++ chunk.dropLast.take kept }),
            w.later 1)
      | .dies kept => (.error .killed, (w.later 1).write file.path (file.accepted.take kept)) := by
  -- a chunk is written whole, so `fwrite` reads inside the buffer
  have hfit : chunk.length * 1 ≤ chunk.length := by rw [Nat.mul_one]
  have hwrite : Proc.fwrite chunk chunk.length 1 file script w =
      match script w.clock with
      | .done =>
          (.ok (if chunk.length = 0 then 0 else 1,
            { file with accepted := file.accepted ++ chunk }), w.later 1)
      | .fails kept =>
          (.ok ((chunk.dropLast.take kept).length / chunk.length,
            { file with accepted := file.accepted ++ chunk.dropLast.take kept }), w.later 1)
      | .dies kept =>
          (.error .killed, (w.later 1).write file.path (file.accepted.take kept)) := by
    rw [Proc.fwrite, if_pos hfit, Nat.mul_one, List.take_length, Proc.interact]
    cases script w.clock <;> rfl
  cases hfate : script w.clock with
  | done =>
      rw [hfate] at hwrite
      rw [writeData, Proc.bind_ok hwrite]
      cases chunk <;> rfl
  | fails kept =>
      rw [hfate] at hwrite
      rw [writeData, Proc.bind_ok hwrite]
      -- fewer bytes than asked for are no item at all
      have hshort : (chunk.dropLast.take kept).length / chunk.length = 0 := by
        cases chunk with
        | nil => simp
        | cons b bs =>
            refine Nat.div_eq_of_lt ?_
            simp only [List.length_take, List.length_dropLast, List.length_cons]
            omega
      rw [hshort]
      rfl
  | dies kept =>
      rw [hfate] at hwrite
      rw [writeData, Proc.bind_error hwrite]

/-- When no write fails, every chunk is accepted, and an empty one is taken for an error. -/
theorem writeChunks_done (cs : List Bytes) (error : Bool) (file : Stream) {script : Script}
    {w : World} (hdone : script.AllDone w.clock cs.length) :
    writeChunks cs error file script w =
      (.ok (error || cs.any List.isEmpty, { file with accepted := file.accepted ++ cs.flatten }),
        w.later cs.length) := by
  -- one write after the other; the clock runs along
  induction cs generalizing error file w with
  | nil => simp [writeChunks, World.later]
  | cons c cs ih =>
      rcases Script.allDone_succ.mp hdone with ⟨hfirst, hrest⟩
      have hstep := writeData_apply c file script w
      rw [hfirst] at hstep
      rw [writeChunks, Proc.bind_ok hstep]
      have htail := ih (error || c.isEmpty) { file with accepted := file.accepted ++ c }
        (w := w.later 1) hrest
      simp only [htail, World.later_later, List.any_cons, List.flatten_cons, List.append_assoc,
        Bool.or_assoc, List.length_cons, Nat.add_comm 1]

/-- When no error is reported, every write succeeded and no chunk was empty. -/
theorem writeChunks_clean (cs : List Bytes) {error : Bool} {file file' : Stream} {script : Script}
    {w : World} (h : (writeChunks cs error file script w).1 = .ok (false, file')) :
    error = false ∧ script.AllDone w.clock cs.length ∧ ∀ c ∈ cs, c ≠ [] := by
  -- backwards from the result: the flag is never cleared
  induction cs generalizing error file w with
  | nil =>
      cases h
      exact ⟨rfl, Script.allDone_zero _ _, by simp⟩
  | cons c cs ih =>
      have hstep := writeData_apply c file script w
      cases hfate : script w.clock with
      | done =>
          rw [hfate] at hstep
          rw [writeChunks, Proc.bind_ok hstep] at h
          rcases ih h with ⟨herror, hrest, hnonempty⟩
          rcases Bool.or_eq_false_iff.mp herror with ⟨herror, hc⟩
          refine ⟨herror, Script.allDone_succ.mpr ⟨hfate, hrest⟩, ?_⟩
          intro c' hc'
          rcases List.mem_cons.mp hc' with rfl | hc'
          · simpa using hc
          · exact hnonempty c' hc'
      | fails kept =>
          -- an error stays an error
          rw [hfate] at hstep
          rw [writeChunks, Proc.bind_ok hstep] at h
          have herror := (ih h).1
          simp at herror
      | dies kept =>
          -- a process that died reports nothing
          rw [hfate] at hstep
          rw [writeChunks, Proc.bind_error hstep] at h
          cases h

/-! ## What the writes cannot do -/

variable {path p : Path} {script : Script} {w w' : World}

/-- A dictionary that is not whole is not written to its end. -/
theorem writePairs_bad {i₀ fuel : Nat} {error : Bool} {file : Stream} {r : Bool × Stream}
    (hrun : writePairs d fuel i₀ error file script w = (.ok r, w')) (i : Nat) (hle : i₀ ≤ i)
    (hlt : i < i₀ + fuel) :
    ∃ key value : Blob, dictKeyIter d i >>= deref = .ok key ∧
      dictValueIter d i >>= deref = .ok value := by
  induction fuel generalizing i₀ error file w with
  | zero => omega
  | succ fuel ih =>
      rcases Proc.bind_eq_ok.mp hrun with ⟨key, w₁, hkey, hrun⟩
      rcases Proc.bind_eq_ok.mp hrun with ⟨r₁, w₂, _, hrun⟩
      rcases Proc.bind_eq_ok.mp hrun with ⟨value, w₃, hvalue, hrun⟩
      rcases Proc.bind_eq_ok.mp hrun with ⟨r₂, w₄, _, hrun⟩
      -- the pair at `i` is written in this round or in a later one
      rcases Nat.eq_or_lt_of_le hle with rfl | hlt'
      · exact ⟨key, value, (Prod.mk.inj hkey).1, (Prod.mk.inj hvalue).1⟩
      · exact ih hrun hlt' (by omega)

theorem writeDict_whole {file : Stream} {r : Bool × Stream}
    (hrun : writeDict d file script w = (.ok r, w')) : Whole d := by
  rcases Proc.bind_eq_ok.mp hrun with ⟨r₁, w₁, _, hrun⟩
  rcases Proc.bind_eq_ok.mp hrun with ⟨r₂, w₂, _, hrun⟩
  -- a run to the end has read the pair that cannot be read
  by_contra hbad
  rcases exists_bad_of_not_whole hbad with ⟨i, hi, hfault⟩
  rcases writePairs_bad hrun i (Nat.zero_le i) (by rw [Nat.zero_add]; exact hi) with
    ⟨key, value, hkey, hvalue⟩
  exact hfault key value hkey hvalue

theorem leaves_writeData {file : Stream} (size : Nat) (buffer : Bytes) (h : p ≠ file.path) :
    Proc.Leaves p (writeData file size buffer) (fun r => r.2.path = file.path) :=
  (Proc.Leaves.fwrite h).bind (fun _ hr => Proc.Leaves.pure hr)

theorem leaves_writeBlob {file : Stream} (blob : Blob) (error : Bool) (h : p ≠ file.path) :
    Proc.Leaves p (writeBlob file blob error) (fun r => r.2.path = file.path) := by
  refine (leaves_writeData 4 (toLE 4 blob.length) h).bind (fun r hr => ?_)
  refine (leaves_writeData _ _ (by rw [hr]; exact h)).bind (fun r' hr' => ?_)
  exact Proc.Leaves.pure (hr'.trans hr)

theorem leaves_writePairs (fuel i : Nat) (error : Bool) (file : Stream) (h : p ≠ file.path) :
    Proc.Leaves p (writePairs d fuel i error file) (fun r => r.2.path = file.path) := by
  induction fuel generalizing i error file with
  | zero => exact Proc.Leaves.pure rfl
  | succ fuel ih =>
      refine Proc.Leaves.bind (Q := fun _ => True) (Proc.Leaves.lift (fun _ _ => trivial))
        (fun key _ => ?_)
      refine (leaves_writeBlob key error h).bind (fun r hr => ?_)
      refine Proc.Leaves.bind (Q := fun _ => True) (Proc.Leaves.lift (fun _ _ => trivial))
        (fun value _ => ?_)
      refine (leaves_writeBlob value r.1 (by rw [hr]; exact h)).bind (fun r' hr' => ?_)
      have hpath : r'.2.path = file.path := hr'.trans hr
      have hrest := ih (i + 1) r'.1 r'.2 (by rw [hpath]; exact h)
      rwa [hpath] at hrest

theorem leaves_writeDict {file : Stream} (h : p ≠ file.path) :
    Proc.Leaves p (writeDict d file) (fun r => r.2.path = file.path) := by
  refine (leaves_writeData 4 (toLE 4 databaseMagic) h).bind (fun r hr => ?_)
  refine (leaves_writeData 4 (toLE 4 (dictLen d)) (by rw [hr]; exact h)).bind (fun r' hr' => ?_)
  have hpath : r'.2.path = file.path := hr'.trans hr
  have hrest := leaves_writePairs (d := d) (dictLen d) 0 (false || r.1 || r'.1) r'.2
    (by rw [hpath]; exact h)
  rwa [hpath] at hrest

/-! ## Runs of `SaveDict` -/

theorem chunks_length (entries : List (Bytes × Bytes)) :
    (chunks entries).length = 2 + 4 * entries.length := by
  have hpairs : (entries.flatMap pairChunks).length = 4 * entries.length := by
    induction entries with
    | nil => rfl
    | cons e es ih =>
        simp only [List.flatMap_cons, List.length_append, ih, pairChunks, List.length_cons,
          List.length_nil]
        omega
  simp only [chunks, List.length_cons, hpairs]
  omega

/-- Only blobs give empty chunks. -/
theorem forall_chunks_ne_nil {entries : List (Bytes × Bytes)} :
    (∀ c ∈ chunks entries, c ≠ []) ↔ NoneEmpty entries := by
  -- a length field has four bytes
  have hint : ∀ n, toLE 4 n ≠ [] := by
    intro n hnil
    have hlen := toLE_length 4 n
    rw [hnil] at hlen
    cases hlen
  simp only [chunks, List.mem_cons, List.mem_flatMap, pairChunks, NoneEmpty]
  constructor
  · intro h e he
    exact ⟨h e.1 (Or.inr (Or.inr ⟨e, he, by simp⟩)), h e.2 (Or.inr (Or.inr ⟨e, he, by simp⟩))⟩
  · rintro h c (rfl | rfl | ⟨e, he, hc⟩)
    · exact hint _
    · exact hint _
    · simp only [List.mem_nil_iff, or_false] at hc
      rcases hc with rfl | rfl | rfl | rfl
      · exact hint _
      · exact (h e he).1
      · exact hint _
      · exact (h e he).2

theorem any_isEmpty_chunks {entries : List (Bytes × Bytes)} :
    (chunks entries).any List.isEmpty = false ↔ NoneEmpty entries := by
  rw [← forall_chunks_ne_nil, List.any_eq_false]
  simp only [List.isEmpty_iff]

/-- The temporary file is another file. -/
theorem tempPath_ne (path : Path) : path ≠ path ++ newSuffix := by
  intro h
  have hlen := congrArg List.length h
  simp [newSuffix] at hlen

/-- The number of the interaction in which `SaveDict` flushes. -/
def flushAt (d : Dict) : Nat := 4 + 4 * d.dataCount

/-- Up to the flush, when nothing has failed. -/
theorem saveDict_written (h : Whole d) (hdone : script.AllDone w.clock (flushAt d)) :
    saveDict d path script w =
      finishSave ((chunks (liveEntries d)).any List.isEmpty)
        ⟨path ++ newSuffix, serialize (liveEntries d)⟩ (path ++ newSuffix) path script
        ((w.write (path ++ newSuffix) []).later (flushAt d)) := by
  -- interaction 0 is `malloc`, 1 is `fopen`, the writes follow
  have hfate : ∀ k < flushAt d, script (w.clock + k) = .done := hdone
  have hmalloc : Proc.malloc script w = (.ok true, w.later 1) :=
    Proc.malloc_done (hfate 0 (by unfold flushAt; omega))
  have hopen : Proc.fopenWrite (path ++ newSuffix) script (w.later 1) =
      (.ok (some ⟨path ++ newSuffix, []⟩), (w.write (path ++ newSuffix) []).later 2) :=
    Proc.fopenWrite_done (path ++ newSuffix) (hfate 1 (by unfold flushAt; omega))
  have hlen : (chunks (liveEntries d)).length = 2 + 4 * d.dataCount := by
    rw [chunks_length, h.length_eq]
  have hwrites : writeDict d ⟨path ++ newSuffix, []⟩ script
        ((w.write (path ++ newSuffix) []).later 2) =
      (.ok ((chunks (liveEntries d)).any List.isEmpty,
          ⟨path ++ newSuffix, serialize (liveEntries d)⟩),
        (w.write (path ++ newSuffix) []).later (flushAt d)) := by
    rw [writeDict_eq h, writeChunks_done]
    · rw [World.later_later, hlen, Bool.false_or, List.nil_append, ← Nat.add_assoc]
      rfl
    -- the writes are the interactions from 2 on
    · intro k hk
      rw [hlen] at hk
      rw [World.later_clock, World.write_clock, Nat.add_assoc]
      exact hfate (2 + k) (by unfold flushAt; omega)
  rw [saveDict, Proc.bind_ok hmalloc, if_pos rfl, Proc.bind_ok hopen]
  exact Proc.bind_ok hwrites

/-- The run that replaces the database by `content`, the part of the serialization that the flush
has stored. -/
structure Installs (d : Dict) (script : Script) (clock : Nat) (content : Bytes) : Prop where
  whole : Whole d
  noneEmpty : NoneEmpty (liveEntries d)
  done : script.AllDone clock (flushAt d)
  flush : script (clock + flushAt d) = .done ∧ content = serialize (liveEntries d) ∨
    ∃ kept, script (clock + flushAt d) = .fails kept ∧
      content = (serialize (liveEntries d)).take kept
  rename : script (clock + flushAt d + 1) = .done

theorem saveDict_installs (path : Path) {content : Bytes} (h : Installs d script w.clock content) :
    (saveDict d path script w).2.files path = some content ∧
      ((script (w.clock + flushAt d + 2)).Deadly ∧
          (saveDict d path script w).1 = .error .killed ∨
        ¬ (script (w.clock + flushAt d + 2)).Deadly ∧
          (saveDict d path script w).1 = .ok true) := by
  rw [saveDict_written h.whole h.done, any_isEmpty_chunks.mpr h.noneEmpty]
  -- the temporary file holds `content`, whatever `fclose` returns
  have hclose : ∃ (r : Int) (w₁ : World),
      Proc.fclose ⟨path ++ newSuffix, serialize (liveEntries d)⟩ script
        ((w.write (path ++ newSuffix) []).later (flushAt d)) = (.ok r, w₁) ∧
      w₁.clock = w.clock + flushAt d + 1 ∧ w₁.files (path ++ newSuffix) = some content := by
    rcases h.flush with ⟨hfate, rfl⟩ | ⟨kept, hfate, rfl⟩
    · exact ⟨0, _, Proc.fclose_done _ hfate, rfl, World.write_files_self _ _ _⟩
    · exact ⟨-1, _, Proc.fclose_fails _ hfate, rfl, World.write_files_self _ _ _⟩
  rcases hclose with ⟨r, w₁, hclose, hclock₁, htemp⟩
  have hfate₁ : script w₁.clock = .done := by
    rw [hclock₁]
    exact h.rename
  rcases Proc.rename_done hfate₁ htemp (tempPath_ne path) with ⟨w₂, hrename, hclock₂, hpath, _⟩
  have hclock : w₂.clock = w.clock + flushAt d + 2 := by rw [hclock₂, hclock₁]
  -- that value is not looked at: the rename follows in both cases
  rw [finishSave, Proc.bind_ok hclose, if_neg Bool.false_ne_true, Proc.bind_ok hrename, ← hclock]
  -- the database is replaced by now; only `free` is left
  by_cases hdead : (script w₂.clock).Deadly
  · rw [Proc.bind_error (Proc.free_killed hdead)]
    exact ⟨hpath, Or.inl ⟨hdead, rfl⟩⟩
  · rw [Proc.bind_ok (Proc.free_apply hdead)]
    exact ⟨hpath, Or.inr ⟨hdead, rfl⟩⟩

theorem leaves_return {saved : Bool} (h : saved = false) :
    Proc.Leaves path (pure saved) (fun saved => saved = false) :=
  Proc.Leaves.pure h

/-- The ways out of `SaveDict` that only free the path and return false. -/
theorem leaves_free_return {saved : Bool} (h : saved = false) :
    Proc.Leaves path (Proc.free >>= fun _ => pure saved) (fun saved => saved = false) :=
  Proc.Leaves.free.bind (fun _ _ => leaves_return h)

theorem leaves_finishSave_error {file : Stream} (tempPath : Path) (h : path ≠ file.path) :
    Proc.Leaves path (finishSave true file tempPath path) (fun saved => saved = false) :=
  (Proc.Leaves.fclose h).bind (fun _ _ => leaves_free_return rfl)

/-- A run in which something failed before the flush, or a blob was `NULL` or empty. -/
theorem saveDict_unwritten
    (h : ¬ (Whole d ∧ NoneEmpty (liveEntries d) ∧ script.AllDone w.clock (flushAt d))) :
    (saveDict d path script w).2.files path = w.files path ∧
      ∀ saved, (saveDict d path script w).1 = .ok saved → saved = false := by
  -- follow the interactions up to the first that went wrong
  refine Proc.Leaves.malloc.bind_run (fun granted w₁ hmalloc _ => ?_)
  cases granted with
  | false => exact leaves_return rfl script w₁
  | true =>
      rcases Proc.malloc_granted hmalloc with ⟨hfate₀, rfl⟩
      refine (Proc.Leaves.fopenWrite (tempPath_ne path)).bind_run (fun r w₂ hopen hr => ?_)
      cases r with
      | none => exact leaves_free_return rfl script w₂
      | some file =>
          obtain rfl := hr file rfl
          rcases Proc.fopenWrite_opened hopen with ⟨hfate₁, hclock₂⟩
          refine (leaves_writeDict (tempPath_ne path)).bind_run (fun r w₃ hwrites hpath => ?_)
          rcases r with ⟨error, file⟩
          cases error with
          -- an error was remembered: the temporary file is closed and left alone
          | true =>
              refine leaves_finishSave_error _ ?_ script w₃
              rw [hpath]
              exact tempPath_ne path
          | false =>
              -- no error was reported, so everything was there and every write succeeded
              exfalso
              have hwhole : Whole d := writeDict_whole hwrites
              rw [writeDict_eq hwhole] at hwrites
              have hclean := writeChunks_clean _ (congrArg Prod.fst hwrites)
              rcases hclean with ⟨_, hdone, hnonempty⟩
              refine h ⟨hwhole, forall_chunks_ne_nil.mp hnonempty, ?_⟩
              have hall : script.AllDone w.clock (2 + (2 + 4 * d.dataCount)) := by
                rw [chunks_length, hwhole.length_eq, hclock₂] at hdone
                rw [Nat.add_comm 2]
                exact Script.allDone_succ.mpr ⟨hfate₀, Script.allDone_succ.mpr ⟨hfate₁, hdone⟩⟩
              rwa [← Nat.add_assoc] at hall

/-- Nothing else reaches the database. -/
theorem saveDict_keeps (path : Path) (h : ∀ content, ¬ Installs d script w.clock content) :
    (saveDict d path script w).2.files path = w.files path ∧
      ∀ saved, (saveDict d path script w).1 = .ok saved → saved = false := by
  by_cases hclean :
      Whole d ∧ NoneEmpty (liveEntries d) ∧ script.AllDone w.clock (flushAt d)
  · rcases hclean with ⟨hwhole, hnonempty, hdone⟩
    rw [saveDict_written hwhole hdone, any_isEmpty_chunks.mpr hnonempty]
    have hkept : ((w.write (path ++ newSuffix) []).later (flushAt d)).files path = w.files path :=
      w.write_files_ne [] (tempPath_ne path)
    rw [← hkept]
    refine (Proc.Leaves.fclose (tempPath_ne path)).bind_run (fun r w₁ hclose _ => ?_)
    rw [if_neg Bool.false_ne_true]
    rcases Proc.fclose_returned hclose with ⟨hclock, hflush⟩
    -- everything was written, so it is the rename that did not happen
    have hnot : script w₁.clock ≠ .done := by
      intro hrename
      rw [hclock] at hrename
      rcases hflush with hflush | ⟨kept, hflush⟩
      · exact h _ ⟨hwhole, hnonempty, hdone, Or.inl ⟨hflush, rfl⟩, hrename⟩
      · exact h _ ⟨hwhole, hnonempty, hdone, Or.inr ⟨kept, hflush, rfl⟩, hrename⟩
    rcases Proc.rename_not_done (path ++ newSuffix) path hnot with ⟨hw₂, hr⟩
    cases hrename : Proc.rename (path ++ newSuffix) path script w₁ with
    | mk r w₂ =>
        rw [hrename] at hw₂ hr
        obtain rfl : w₂ = w₁.later 1 := hw₂
        cases r with
        | error e =>
            rw [Proc.bind_error hrename]
            exact ⟨rfl, fun saved hsaved => by cases hsaved⟩
        | ok success =>
            rw [Proc.bind_ok hrename]
            -- `rename` did not return 0, and `SaveDict` says so
            have hne : (success == 0) = false := by
              refine beq_eq_false_iff_ne.mpr ?_
              rintro rfl
              exact hr rfl
            exact leaves_free_return hne script (w₁.later 1)
  · exact saveDict_unwritten hclean

/-! ## Replacing the database -/

/-- The database is as before or completely written, and the result of `SaveDict` says which. -/
structure Replaced (d : Dict) (path : Path) (before after : World) (result : Fallible Bool) :
    Prop where
  either : after.files path = before.files path ∨
    after.files path = some (serialize (liveEntries d))
  saved : result = .ok true → after.files path = some (serialize (liveEntries d))
  unsaved : result = .ok false → after.files path = before.files path

/-- Everything succeeds except the flush, which stores `kept` bytes.  It shows unless the process is
killed before `SaveDict` returns and these bytes are what the database held anyway. -/
structure LateFailure (d : Dict) (path : Path) (script : Script) (w : World) (kept : Nat) :
    Prop where
  whole : Whole d
  noneEmpty : NoneEmpty (liveEntries d)
  done : script.AllDone w.clock (flushAt d)
  flush : script (w.clock + flushAt d) = .fails kept
  short : kept < (serialize (liveEntries d)).length
  rename : script (w.clock + flushAt d + 1) = .done
  shows : ¬ (script (w.clock + flushAt d + 2)).Deadly ∨
    w.files path ≠ some ((serialize (liveEntries d)).take kept)

theorem take_ne_of_lt {bytes : Bytes} {kept : Nat} (h : kept < bytes.length) :
    some (bytes.take kept) ≠ some bytes := by
  intro heq
  have hlen := congrArg List.length (Option.some.inj heq)
  rw [List.length_take] at hlen
  omega

theorem LateFailure.not_replaced {kept : Nat} (h : LateFailure d path script w kept) :
    ¬ Replaced d path w (saveDict d path script w).2 (saveDict d path script w).1 := by
  intro hrep
  have hinst : Installs d script w.clock ((serialize (liveEntries d)).take kept) :=
    ⟨h.whole, h.noneEmpty, h.done, Or.inr ⟨kept, h.flush, rfl⟩, h.rename⟩
  rcases saveDict_installs path hinst with ⟨hfile, hend⟩
  have hne := take_ne_of_lt h.short
  rcases hend with ⟨hdead, _⟩ | ⟨_, hsaved⟩
  · -- killed before it returned: only the content can tell
    rcases h.shows with hlive | hprev
    · exact hlive hdead
    · rcases hrep.either with heq | heq
      · exact hprev (heq.symm.trans hfile)
      · exact hne (hfile.symm.trans heq)
  · exact hne (hfile.symm.trans (hrep.saved hsaved))

theorem Installs.replaced {content : Bytes} (h : Installs d script w.clock content)
    (hnot : ∀ kept, ¬ LateFailure d path script w kept) :
    Replaced d path w (saveDict d path script w).2 (saveDict d path script w).1 := by
  rcases saveDict_installs path h with ⟨hfile, hend⟩
  have hunsaved : (saveDict d path script w).1 ≠ .ok false := by
    rcases hend with ⟨_, hres⟩ | ⟨_, hres⟩ <;> simp [hres]
  -- a complete flush replaces the database as it should
  by_cases hwhole : content = serialize (liveEntries d)
  · rw [hwhole] at hfile
    exact ⟨Or.inr hfile, fun _ => hfile, fun hres => absurd hres hunsaved⟩
  · -- a partial flush that does not show
    rcases h.flush with ⟨_, heq⟩ | ⟨kept, hflush, heq⟩
    · exact absurd heq hwhole
    have hshort : kept < (serialize (liveEntries d)).length := by
      by_contra hge
      exact hwhole (heq.trans (List.take_of_length_le (Nat.le_of_not_lt hge)))
    -- it does not show, so the process died and the old content is there again
    have hhidden : (script (w.clock + flushAt d + 2)).Deadly ∧ w.files path = some content := by
      by_contra hshows
      refine hnot kept ⟨h.whole, h.noneEmpty, h.done, hflush, hshort, h.rename, ?_⟩
      rw [← heq]
      exact not_and_or.mp hshows
    rcases hend with ⟨_, hres⟩ | ⟨hlive, _⟩
    · refine ⟨Or.inl (hfile.trans hhidden.2.symm), fun hsaved => ?_,
        fun hres' => absurd hres' hunsaved⟩
      rw [hres] at hsaved
      cases hsaved
    · exact absurd hhidden.1 hlive

/-- Without a late failure the old database is replaced or kept. -/
theorem saveDict_replaces (hnot : ∀ kept, ¬ LateFailure d path script w kept) :
    Replaced d path w (saveDict d path script w).2 (saveDict d path script w).1 := by
  by_cases hinst : ∃ content, Installs d script w.clock content
  · rcases hinst with ⟨content, hinst⟩
    exact hinst.replaced hnot
  -- nothing was installed: the database is as before
  · rcases saveDict_keeps path (fun content h => hinst ⟨content, h⟩) with
      ⟨hfile, hres⟩
    refine ⟨Or.inl hfile, fun hsaved => ?_, fun _ => hfile⟩
    cases hres true hsaved

/-- `SaveDict` replaces the database atomically, and reports it truthfully, in exactly the runs
without a late failure. -/
theorem saveDict_replaced_iff (d : Dict) (path : Path) (script : Script) (w : World) :
    Replaced d path w (saveDict d path script w).2 (saveDict d path script w).1 ↔
      ∀ kept, ¬ LateFailure d path script w kept := by
  constructor
  · intro hrep kept hlate
    exact hlate.not_replaced hrep
  · intro hnot
    exact saveDict_replaces hnot

/-- The disk is full when the new database is flushed: `SaveDict` returns true and has replaced the
old database by an empty file. -/
theorem saveDict_not_replaced :
    ∃ o, dictSet .always createDict (.ofBytes 0 [0x6b]) (some (.ofBytes 1 [0x76])) = .ok o ∧
      (let run := saveDict o.dict [0x64, 0x62] (fun k => if k = 8 then .fails 0 else .done)
        ⟨fun _ => some [0x6f, 0x6c, 0x64], 0⟩
      run.1 = .ok true ∧ run.2.files [0x64, 0x62] = some [] ∧
        ¬ Replaced o.dict [0x64, 0x62] ⟨fun _ => some [0x6f, 0x6c, 0x64], 0⟩ run.2 run.1) := by
  refine ⟨_, rfl, rfl, rfl, ?_⟩
  intro hrep
  have hsaved := hrep.saved rfl
  revert hsaved
  decide

end Database
end KnShim
