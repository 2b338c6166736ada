import Mathlib.Data.Fintype.Card
import Mathlib.Data.Nat.Find
import Mathlib.Logic.Function.Basic
import Mathlib.Tactic.Common

/-!
# ProbeIndex — open addressing with linear probing

A table of `N` slots indexes `count` items that are kept elsewhere, under the numbers
`0, …, count - 1`.  Item `i` is looked for from its home position `home i`, one slot after the
other and around the end of the table, up to the first slot that was never used.

`ProbeIndex.Packed` says that the used slots name items, none of them twice, which is what makes a
search for a reusable slot end.  `ProbeIndex.Sound` adds that every item is found: it does not lie
behind a never-used slot.  Both are kept by

* `Sound.place` : a new item is put into the first reusable slot on its way;
* `Sound.retire` : an item is removed, its slot is marked, and the items behind it are renumbered.

A table is a function on positions; only positions below `N` matter.
-/

namespace KnShim
namespace Lib

/-- The content of one slot: never used, used in the past, or naming item `i`. -/
inductive Slot where
  | empty
  | deleted
  | full (i : Nat)
  deriving DecidableEq, Repr

namespace Slot

/-- A slot that a new item may take. -/
def Free : Slot → Prop
  | .full _ => False
  | _ => True

instance : DecidablePred Free := fun s =>
  match s with
  | .empty => isTrue trivial
  | .deleted => isTrue trivial
  | .full _ => isFalse id

@[simp] theorem free_empty : Free .empty := trivial
@[simp] theorem free_deleted : Free .deleted := trivial
@[simp] theorem not_free_full (i : Nat) : ¬ Free (.full i) := id

theorem not_free_iff {s : Slot} : ¬ s.Free ↔ ∃ i, s = .full i := by
  cases s <;> simp

/-- Item `r` goes away and the items behind it move down by one. -/
def retire (r : Nat) : Slot → Slot
  | .full i => if i > r then .full (i - 1) else if i = r then .deleted else .full i
  | s => s

theorem retire_eq_empty {r : Nat} {s : Slot} : s.retire r = .empty ↔ s = .empty := by
  cases s with
  | empty => simp [retire]
  | deleted => simp [retire]
  | full i =>
      simp only [retire]
      split_ifs <;> simp

theorem retire_eq_full {r i : Nat} {s : Slot} :
    s.retire r = .full i ↔ s = .full (if i < r then i else i + 1) := by
  cases s with
  | empty => simp [retire]
  | deleted => simp [retire]
  | full j =>
      simp only [retire]
      split_ifs <;> simp <;> omega

end Slot

namespace ProbeIndex

/-- The position that the walk from `h` visits at its `k`-th step. -/
def probe (N h k : Nat) : Nat := (h + k) % N

theorem probe_lt {N : Nat} (hN : 0 < N) (h k : Nat) : probe N h k < N := Nat.mod_lt _ hN

/-- `N` steps visit every position. -/
theorem exists_probe_eq {N p : Nat} (hp : p < N) (h : Nat) : ∃ k < N, probe N h k = p := by
  have hh : h % N < N := Nat.mod_lt _ (by omega)
  have hstep : ∀ k < N, probe N h k = (h % N + k) % N := by
    intro k hk
    simp [probe, Nat.add_mod, Nat.mod_eq_of_lt hk]
  -- ahead of the home position, or around the end of the table
  by_cases hle : h % N ≤ p
  · refine ⟨p - h % N, by omega, ?_⟩
    rw [hstep _ (by omega), Nat.add_sub_cancel' hle, Nat.mod_eq_of_lt hp]
  · refine ⟨p + N - h % N, by omega, ?_⟩
    have hwrap : h % N + (p + N - h % N) = p + N := by omega
    rw [hstep _ (by omega), hwrap, Nat.add_mod_right, Nat.mod_eq_of_lt hp]

/-- The used slots of `t` name items below `count`, no item twice. -/
structure Packed (N count : Nat) (t : Nat → Slot) : Prop where
  bound : ∀ p i, p < N → t p = .full i → i < count
  unique : ∀ p q i, p < N → q < N → t p = .full i → t q = .full i → p = q

namespace Packed

variable {N count : Nat} {t : Nat → Slot}

/-- A table of never-used slots. -/
theorem vacant (N : Nat) : Packed N 0 (fun _ => .empty) where
  bound := by
    intro p i _ h
    cases h
  unique := by
    intro p q i _ _ h
    cases h

theorem congr {t' : Nat → Slot} (hs : Packed N count t) (ht : ∀ p < N, t' p = t p) :
    Packed N count t' where
  bound := by
    intro p i hp h
    exact hs.bound p i hp (ht p hp ▸ h)
  unique := by
    intro p q i hp hq h₁ h₂
    exact hs.unique p q i hp hq (ht p hp ▸ h₁) (ht q hq ▸ h₂)

/-- A table with more slots than items has a reusable slot. -/
theorem exists_free (hs : Packed N count t) (hlt : count < N) : ∃ p < N, (t p).Free := by
  -- pigeonhole: slots that are all in use would be at most as many as the items
  by_contra hnone
  have hall : ∀ p : Fin N, ∃ i : Fin count, t p = .full i := by
    intro p
    have hnf : ¬ (t p).Free := fun hf => hnone ⟨p, p.isLt, hf⟩
    rcases Slot.not_free_iff.mp hnf with ⟨i, hi⟩
    exact ⟨⟨i, hs.bound p i p.isLt hi⟩, hi⟩
  choose f hf using hall
  have hinj : Function.Injective f := by
    intro p q hpq
    have hq : t q = .full (f p) := by rw [hf q, hpq]
    exact Fin.ext (hs.unique p q (f p) p.isLt q.isLt (hf p) hq)
  have hcard := Fintype.card_le_of_injective f hinj
  simp only [Fintype.card_fin] at hcard
  omega

/-- Every walk meets a reusable slot within `N` steps; take the first one. -/
theorem exists_first_free (hs : Packed N count t) (hlt : count < N) (h : Nat) :
    ∃ n < N, (t (probe N h n)).Free ∧ ∀ m < n, ¬ (t (probe N h m)).Free := by
  rcases hs.exists_free hlt with ⟨p, hp, hfree⟩
  -- the walk visits that slot within `N` steps, so a first free one exists
  rcases exists_probe_eq hp h with ⟨k, hk, hkp⟩
  have hex : ∃ n, (t (probe N h n)).Free := ⟨k, by rw [hkp]; exact hfree⟩
  refine ⟨Nat.find hex, ?_, Nat.find_spec hex, fun m hm => Nat.find_min hex hm⟩
  have hle : Nat.find hex ≤ k := Nat.find_min' hex (by rw [hkp]; exact hfree)
  omega

/-- Item `count`, or nothing, is written to one slot. -/
theorem place (hs : Packed N count t) {p₀ : Nat} {s : Slot}
    (hslot : ∀ i, s = .full i → i = count) :
    Packed N (count + 1) (Function.update t p₀ s) where
  bound := by
    intro p i hp hfull
    by_cases hpn : p = p₀
    · rw [hpn, Function.update_self] at hfull
      have := hslot i hfull
      omega
    · rw [Function.update_of_ne hpn] at hfull
      have := hs.bound p i hp hfull
      omega
  unique := by
    intro p q i hp hq h₁ h₂
    -- the new item is nowhere else, because the old items are below `count`
    by_cases hpn : p = p₀
    · by_cases hqn : q = p₀
      · rw [hpn, hqn]
      · rw [Function.update_of_ne hqn] at h₂
        rw [hpn, Function.update_self] at h₁
        have := hslot i h₁
        have := hs.bound q i hq h₂
        omega
    · rw [Function.update_of_ne hpn] at h₁
      by_cases hqn : q = p₀
      · rw [hqn, Function.update_self] at h₂
        have := hslot i h₂
        have := hs.bound p i hp h₁
        omega
      · rw [Function.update_of_ne hqn] at h₂
        exact hs.unique p q i hp hq h₁ h₂

/-- Remove item `r` and renumber the items behind it. -/
theorem retire (hs : Packed N count t) {r : Nat} (hr : r < count) :
    Packed N (count - 1) (fun p => (t p).retire r) where
  bound := by
    intro p i hp hfull
    have := hs.bound p _ hp (Slot.retire_eq_full.mp hfull)
    split_ifs at this <;> omega
  unique := by
    intro p q i hp hq h₁ h₂
    exact hs.unique p q _ hp hq (Slot.retire_eq_full.mp h₁) (Slot.retire_eq_full.mp h₂)

end Packed

/-- The table `t` of `N` slots indexes the items `0, …, count - 1`. -/
structure Sound (N count : Nat) (home : Nat → Nat) (t : Nat → Slot) : Prop
    extends Packed N count t where
  reach : ∀ i, i < count →
    ∃ n < N, t (probe N (home i) n) = .full i ∧ ∀ m < n, t (probe N (home i) m) ≠ .empty

namespace Sound

variable {N count : Nat} {home : Nat → Nat} {t : Nat → Slot}

/-- A table of never-used slots indexes nothing. -/
theorem vacant (N : Nat) (home : Nat → Nat) : Sound N 0 home (fun _ => .empty) where
  toPacked := Packed.vacant N
  reach := by
    intro i hi
    omega

theorem congr {home' : Nat → Nat} {t' : Nat → Slot} (hs : Sound N count home t)
    (ht : ∀ p < N, t' p = t p) (hh : ∀ i < count, home' i = home i) :
    Sound N count home' t' where
  toPacked := hs.toPacked.congr ht
  reach := by
    intro i hi
    rcases hs.reach i hi with ⟨n, hn, hfull, hway⟩
    -- a walk that reaches anything has slots to visit
    have hN : 0 < N := by omega
    refine ⟨n, hn, ?_, ?_⟩
    · rw [hh i hi, ht _ (probe_lt hN _ _)]
      exact hfull
    · intro m hm
      rw [hh i hi, ht _ (probe_lt hN _ _)]
      exact hway m hm

/-- The slots in use and the items are in bijection. -/
theorem existsUnique (hs : Sound N count home t) {i : Nat} (hi : i < count) :
    ∃! p, p < N ∧ t p = .full i := by
  rcases hs.reach i hi with ⟨n, hn, hfull, _⟩
  have hN : 0 < N := by omega
  refine ⟨probe N (home i) n, ⟨probe_lt hN _ _, hfull⟩, ?_⟩
  rintro q ⟨hq, hqfull⟩
  exact hs.unique q _ i hq (probe_lt hN _ _) hqfull hfull

/-- Put item `count` into the first reusable slot on the way from its home. -/
theorem place (hs : Sound N count home t) {h n : Nat} (hn : n < N)
    (hfree : (t (probe N h n)).Free) (hway : ∀ m < n, ¬ (t (probe N h m)).Free) :
    Sound N (count + 1) (Function.update home count h)
      (Function.update t (probe N h n) (.full count)) where
  toPacked := hs.toPacked.place (fun i hi => by simpa using hi.symm)
  reach := by
    intro i hi
    -- the new item is reached over slots in use, an old one as before
    by_cases hic : i = count
    · subst hic
      refine ⟨n, hn, by simp, ?_⟩
      intro m hm hempty
      rw [Function.update_self] at hempty
      by_cases hpm : probe N h m = probe N h n
      · rw [hpm, Function.update_self] at hempty
        cases hempty
      · rw [Function.update_of_ne hpm] at hempty
        exact hway m hm (by rw [hempty]; trivial)
    · rcases hs.reach i (by omega) with ⟨k, hk, hfull, hbefore⟩
      refine ⟨k, hk, ?_, ?_⟩
      -- the slot of an old item was not free
      · have hpk : probe N (home i) k ≠ probe N h n := by
          intro heq
          rw [← heq, hfull] at hfree
          exact hfree
        rw [Function.update_of_ne hic, Function.update_of_ne hpk]
        exact hfull
      · intro m hm hempty
        rw [Function.update_of_ne hic] at hempty
        -- the slot just filled stops no walk
        by_cases hpm : probe N (home i) m = probe N h n
        · rw [hpm, Function.update_self] at hempty
          cases hempty
        · rw [Function.update_of_ne hpm] at hempty
          exact hbefore m hm hempty

/-- Remove item `r`: its slot stays marked, so that the walks across it go on. -/
theorem retire (hs : Sound N count home t) {r : Nat} (hr : r < count) :
    Sound N (count - 1) (fun i => home (if i < r then i else i + 1))
      (fun p => (t p).retire r) where
  toPacked := hs.toPacked.retire hr
  reach := by
    intro i hi
    -- the renumbered item was an item before
    have hold : (if i < r then i else i + 1) < count := by split_ifs <;> omega
    rcases hs.reach _ hold with ⟨n, hn, hfull, hbefore⟩
    refine ⟨n, hn, Slot.retire_eq_full.mpr hfull, ?_⟩
    intro m hm hempty
    exact hbefore m hm (Slot.retire_eq_empty.mp hempty)

end Sound

end ProbeIndex

end Lib
end KnShim
