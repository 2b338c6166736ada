import KnShim.Lib.Memory

/-!
# WriteLog — memory after a list of writes

`Memory.writeAll` carries out a list of writes in order.  A byte is what the last write that covers
it put there, and is left alone when none does.  Writes to ranges that are pairwise apart can be
carried out in any order.

A loop that writes in each round what it computes from the memory is such a list of writes,
computed at the start, when no round disturbs what a later one reads: `foldl_eq_writeAll`.
-/

namespace KnShim
namespace Lib
namespace Memory

variable {w : Nat}

/-- The memory after the writes. -/
def writeAll (m : Memory w) (log : List (BitVec w × Bytes)) : Memory w :=
  log.foldl (fun m entry => m.write entry.1 entry.2) m

/-- The address is one of those that the entry writes to. -/
def Covers (entry : BitVec w × Bytes) (p : BitVec w) : Prop := InRange entry.1 entry.2.length p

instance (entry : BitVec w × Bytes) (p : BitVec w) : Decidable (Covers entry p) :=
  inferInstanceAs (Decidable (InRange _ _ _))

/-- The entries write to ranges that are pairwise apart. -/
def PairwiseApart (log : List (BitVec w × Bytes)) : Prop :=
  log.Pairwise fun a b => Apart a.1 a.2.length b.1 b.2.length

theorem writeAll_cons (m : Memory w) (entry : BitVec w × Bytes) (log : List (BitVec w × Bytes)) :
    m.writeAll (entry :: log) = (m.write entry.1 entry.2).writeAll log := rfl

theorem writeAll_append (m : Memory w) (log log' : List (BitVec w × Bytes)) :
    m.writeAll (log ++ log') = (m.writeAll log).writeAll log' := List.foldl_append

/-- A byte that no entry covers is left alone. -/
theorem writeAll_of_not_covered {m : Memory w} {log : List (BitVec w × Bytes)} {p : BitVec w}
    (h : ∀ entry ∈ log, ¬ Covers entry p) : m.writeAll log p = m p := by
  induction log generalizing m with
  | nil => rfl
  | cons entry log ih =>
      rcases List.forall_mem_cons.mp h with ⟨hentry, hlog⟩
      rw [writeAll_cons, ih hlog]
      exact write_of_not_inRange m hentry

theorem write_of_covers (m : Memory w) {entry : BitVec w × Bytes} {p : BitVec w}
    (h : Covers entry p) :
    entry.2[(p - entry.1).toNat]? = some (m.write entry.1 entry.2 p) := by
  rw [write, List.getD_eq_getElem?_getD, List.getElem?_eq_getElem h, Option.getD_some]

/-- A byte is what the last entry that covers it put there. -/
theorem writeAll_of_last {m : Memory w} {before after : List (BitVec w × Bytes)}
    {entry : BitVec w × Bytes} {p : BitVec w} (h : Covers entry p)
    (hafter : ∀ other ∈ after, ¬ Covers other p) :
    entry.2[(p - entry.1).toNat]? = some (m.writeAll (before ++ entry :: after) p) := by
  rw [writeAll_append, writeAll_cons, writeAll_of_not_covered hafter]
  exact write_of_covers _ h

/-- Of entries that are pairwise apart only one covers a byte. -/
theorem writeAll_of_covers {m : Memory w} {log : List (BitVec w × Bytes)} (hlog : PairwiseApart log)
    {entry : BitVec w × Bytes} (hmem : entry ∈ log) {p : BitVec w} (h : Covers entry p) :
    entry.2[(p - entry.1).toNat]? = some (m.writeAll log p) := by
  rcases List.mem_iff_append.mp hmem with ⟨before, after, rfl⟩
  apply writeAll_of_last h
  intro other hother
  have hpairs := (List.pairwise_append.mp hlog).2.1
  exact (List.pairwise_cons.mp hpairs).1 other hother p h

/-- What an entry wrote is read back. -/
theorem read_writeAll {m : Memory w} {log : List (BitVec w × Bytes)} (hlog : PairwiseApart log)
    {entry : BitVec w × Bytes} (hmem : entry ∈ log) (hsize : entry.2.length ≤ 2 ^ w) :
    (m.writeAll log).read entry.1 entry.2.length = entry.2 := by
  apply List.ext_getElem?
  intro i
  by_cases hi : i < entry.2.length
  · have hcovers : Covers entry (entry.1 + BitVec.ofNat w i) := inRange_offset _ hi hsize
    have hbyte := writeAll_of_covers (m := m) hlog hmem hcovers
    rw [toNat_add_ofNat_sub _ (lt_of_lt_of_le hi hsize)] at hbyte
    rw [read_getElem? _ _ hi, hbyte]
  · have hle : entry.2.length ≤ i := Nat.le_of_not_lt hi
    rw [List.getElem?_eq_none hle, List.getElem?_eq_none (by rwa [read_length])]

/-- The order of entries that are pairwise apart does not matter. -/
theorem writeAll_perm {m : Memory w} {log log' : List (BitVec w × Bytes)} (h : log.Perm log')
    (hlog : PairwiseApart log) : m.writeAll log = m.writeAll log' := by
  have hlog' : PairwiseApart log' := h.pairwise hlog fun hapart => hapart.symm
  funext p
  -- a byte is covered by an entry of both lists or by none
  by_cases hcovered : ∃ entry ∈ log, Covers entry p
  · rcases hcovered with ⟨entry, hmem, hcovers⟩
    have hbyte := writeAll_of_covers (m := m) hlog hmem hcovers
    have hbyte' := writeAll_of_covers (m := m) hlog' (h.mem_iff.mp hmem) hcovers
    exact Option.some.inj (hbyte.symm.trans hbyte')
  · have hnone : ∀ entry ∈ log, ¬ Covers entry p := fun entry hmem hc => hcovered ⟨entry, hmem, hc⟩
    rw [writeAll_of_not_covered hnone,
      writeAll_of_not_covered fun entry hmem => hnone entry (h.mem_iff.mpr hmem)]

/-- A byte depends on what was there before only when no entry covers it. -/
theorem writeAll_congr {m m' : Memory w} {p : BitVec w} (h : m p = m' p)
    (log : List (BitVec w × Bytes)) : m.writeAll log p = m'.writeAll log p := by
  induction log generalizing m m' with
  | nil => exact h
  | cons entry log ih =>
      rw [writeAll_cons, writeAll_cons]
      apply ih
      rw [write, write, h]

/-! ## Writing again -/

/-- A second write to the same range replaces the first. -/
theorem write_write (m : Memory w) (a : BitVec w) {bs bs' : Bytes} (h : bs.length = bs'.length) :
    (m.write a bs).write a bs' = m.write a bs' := by
  funext p
  by_cases hp : InRange a bs'.length p
  · have hcovers : Covers (a, bs') p := hp
    have hlater := write_of_covers (m.write a bs) hcovers
    have halone := write_of_covers m hcovers
    exact Option.some.inj (hlater.symm.trans halone)
  · have hfirst : ¬ InRange a bs.length p := by rwa [h]
    rw [write_of_not_inRange _ hp, write_of_not_inRange _ hfirst, write_of_not_inRange _ hp]

section Cells

variable {ι : Type} [DecidableEq ι] {cell : ι → BitVec w} {f : ι → Bytes} {items : List ι}

/-- A write to one of the cells counts as a write of this cell in the first place. -/
theorem write_writeAll {m : Memory w}
    (hcells : PairwiseApart (items.map fun i => (cell i, f i))) {i : ι} (hi : i ∈ items)
    {bs : Bytes} (hbs : bs.length = (f i).length) :
    (m.writeAll (items.map fun i => (cell i, f i))).write (cell i) bs =
      m.writeAll (items.map fun j => (cell j, Function.update f i bs j)) := by
  have hlength : ∀ j, (Function.update f i bs j).length = (f j).length := by
    intro j
    by_cases hj : j = i
    · rw [hj, Function.update_self, hbs]
    · rw [Function.update_of_ne hj]
  have hupdated : PairwiseApart (items.map fun j => (cell j, Function.update f i bs j)) := by
    rw [PairwiseApart, List.pairwise_map] at hcells ⊢
    simpa only [hlength] using hcells
  have hmem : (cell i, Function.update f i bs i) ∈
      items.map fun j => (cell j, Function.update f i bs j) :=
    List.mem_map.mpr ⟨i, hi, rfl⟩
  funext p
  by_cases hp : InRange (cell i) (f i).length p
  · -- the byte is in the cell that is written again
    have hcovers : Covers (cell i, Function.update f i bs i) p := by
      rwa [Covers, hlength]
    have hbyte := writeAll_of_covers (m := m) hupdated hmem hcovers
    have hagain : Covers (cell i, bs) p := by
      rwa [Covers, hbs]
    have hwritten := write_of_covers (m.writeAll (items.map fun i => (cell i, f i))) hagain
    rw [Function.update_self] at hbyte
    exact Option.some.inj (hwritten.symm.trans hbyte)
  · have houtside : ¬ InRange (cell i) bs.length p := by rwa [hbs]
    rw [write_of_not_inRange _ houtside]
    by_cases hcovered : ∃ j ∈ items, InRange (cell j) (f j).length p
    · -- another cell, with the same bytes
      rcases hcovered with ⟨j, hj, hin⟩
      have hne : j ≠ i := fun h => hp (h ▸ hin)
      have hbyte := writeAll_of_covers (m := m) hcells
        (List.mem_map.mpr ⟨j, hj, rfl⟩ : (cell j, f j) ∈ _) hin
      have hcovers : Covers (cell j, Function.update f i bs j) p := by
        rwa [Covers, hlength]
      have hbyte' := writeAll_of_covers (m := m) hupdated (List.mem_map.mpr ⟨j, hj, rfl⟩) hcovers
      rw [Function.update_of_ne hne] at hbyte'
      exact Option.some.inj (hbyte.symm.trans hbyte')
    · rw [writeAll_of_not_covered, writeAll_of_not_covered]
      · intro entry hentry hcovers
        rcases List.mem_map.mp hentry with ⟨j, hj, rfl⟩
        rw [Covers, hlength] at hcovers
        exact hcovered ⟨j, hj, hcovers⟩
      · intro entry hentry hcovers
        rcases List.mem_map.mp hentry with ⟨j, hj, rfl⟩
        exact hcovered ⟨j, hj, hcovers⟩

end Cells

/-! ## Loops that write -/

/-- A loop whose rounds write what the memory at the start says, and do not disturb what later
rounds read. -/
theorem foldl_eq_writeAll {α : Type} {step : Memory w → α → Memory w}
    {log : α → BitVec w × Bytes} (reads : α → BitVec w → Prop) {m : Memory w} {items : List α}
    (hstep : ∀ a ∈ items, ∀ m' : Memory w, (∀ p, reads a p → m' p = m p) →
      step m' a = m'.write (log a).1 (log a).2)
    (hapart : items.Pairwise fun a b => ∀ p, Covers (log a) p → ¬ reads b p) :
    items.foldl step m = m.writeAll (items.map log) := by
  -- the memory of a later round agrees with the start on what it reads
  have hrun : ∀ rest : List α, rest.Sublist items → ∀ m' : Memory w,
      (∀ a ∈ rest, ∀ p, reads a p → m' p = m p) →
        rest.foldl step m' = m'.writeAll (rest.map log) := by
    intro rest
    induction rest with
    | nil => exact fun _ _ _ => rfl
    | cons a rest ih =>
        intro hsub m' hagree
        rcases List.forall_mem_cons.mp hagree with ⟨ha, hrest⟩
        have hlater := (List.pairwise_cons.mp (hapart.sublist hsub)).1
        have hmem : a ∈ items := hsub.subset List.mem_cons_self
        rw [List.foldl_cons, hstep a hmem m' ha, List.map_cons, writeAll_cons]
        apply ih ((List.sublist_cons_self a rest).trans hsub)
        intro b hb p hp
        have huncovered : ¬ InRange (log a).1 (log a).2.length p := fun hcovers =>
          hlater b hb p hcovers hp
        rw [write_of_not_inRange _ huncovered]
        exact hrest b hb p hp
  exact hrun items (List.Sublist.refl items) m fun _ _ _ _ => rfl

end Memory
end Lib
end KnShim
