import KnShim.Lib.Fallible
import Mathlib.Data.List.Induction
import Mathlib.Data.List.Perm.Basic

/-!
# Loop — loops over lists

Two kinds of loops.  In the first each round checks something that does not depend on the state, and
goes wrong when it does not hold: `foldlM_guard`.  In the second some variable is assigned in the
rounds of one kind: `foldl_assign` says that the last of these counts, and `lastOf_perm` that their
order does not matter when there is only one.
-/

namespace KnShim
namespace Lib

variable {α β σ : Type}

/-! ## Rounds that may go wrong -/

/-- A loop whose rounds go wrong exactly for the items that do not pass the guard. -/
theorem foldlM_guard {step : σ → α → Fallible σ} (guard : α → Prop) [DecidablePred guard]
    (next : σ → α → σ) {fault : Fault} (inv : σ → Prop) (items : List α)
    (hstep : ∀ s, inv s → ∀ a ∈ items,
      step s a = if guard a then .ok (next s a) else .error fault)
    (hinv : ∀ s, inv s → ∀ a ∈ items, inv (next s a)) {s : σ} (hs : inv s) :
    items.foldlM step s =
      if ∀ a ∈ items, guard a then .ok (items.foldl next s) else .error fault := by
  induction items generalizing s with
  | nil => simp
  | cons a items ih =>
      have hhead := hstep s hs a List.mem_cons_self
      by_cases ha : guard a
      · -- the first round goes through
        have htail := ih (fun s hs b hb => hstep s hs b (List.mem_cons_of_mem a hb))
          (fun s hs b hb => hinv s hs b (List.mem_cons_of_mem a hb))
          (hinv s hs a List.mem_cons_self)
        rw [List.foldlM_cons, hhead, if_pos ha, Fallible.ok_bind, htail]
        simp [ha]
      · rw [List.foldlM_cons, hhead, if_neg ha, Fallible.error_bind, if_neg]
        intro hall
        exact ha (hall a List.mem_cons_self)

/-! ## The last assignment -/

/-- What the last item of a kind assigns. -/
def lastOf (kind : α → Bool) (value : α → β) (items : List α) : Option β :=
  (items.filter kind).getLast?.map value

section LastOf

variable {kind : α → Bool} {value : α → β} {items items' : List α}

theorem lastOf_concat (items : List α) (a : α) :
    lastOf kind value (items ++ [a]) =
      if kind a then some (value a) else lastOf kind value items := by
  rw [lastOf, List.filter_append]
  by_cases ha : kind a
  · simp [ha]
  · simp [ha, lastOf]

/-- Some item of the kind is there. -/
theorem lastOf_isSome_iff : (lastOf kind value items).isSome ↔ ∃ a ∈ items, kind a := by
  rw [lastOf, Option.isSome_map, Option.isSome_iff_ne_none, Ne, List.getLast?_eq_none_iff,
    List.filter_eq_nil_iff]
  simp

theorem lastOf_eq_none_iff : lastOf kind value items = none ↔ ∀ a ∈ items, ¬ kind a := by
  rw [lastOf, Option.map_eq_none_iff, List.getLast?_eq_none_iff, List.filter_eq_nil_iff]

/-- A single item of the kind may stand anywhere. -/
theorem lastOf_perm (h : items.Perm items') (hone : (items.filter kind).length ≤ 1) :
    lastOf kind value items = lastOf kind value items' := by
  have hperm : (items.filter kind).Perm (items'.filter kind) := h.filter kind
  have hfilter : items.filter kind = items'.filter kind := by
    cases hitems : items.filter kind with
    | nil =>
        rw [hitems] at hperm
        exact (List.nil_perm.mp hperm).symm
    | cons a rest =>
        have hrest : rest = [] := by
          rw [hitems, List.length_cons] at hone
          exact List.eq_nil_of_length_eq_zero (by omega)
        rw [hitems, hrest] at hperm
        rw [hrest]
        exact List.singleton_perm.mp hperm
  rw [lastOf, lastOf, hfilter]

end LastOf

/-- A variable that the items of a kind assign to. -/
theorem foldl_assign (step : σ → α → σ) (get : σ → β) (kind : α → Bool) (value : α → β)
    (hstep : ∀ s a, get (step s a) = if kind a then value a else get s)
    (items : List α) (s : σ) :
    get (items.foldl step s) = (lastOf kind value items).getD (get s) := by
  -- induction on the items from the back
  induction items using List.reverseRecOn with
  | nil => rfl
  | append_singleton items a ih =>
      rw [List.foldl_concat, hstep, lastOf_concat, ih]
      split
      · rfl
      · rfl

end Lib
end KnShim
