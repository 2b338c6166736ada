import KnShim.Lib.Machine

/-!
# Durable — a store that may lose its process at any moment

A store has a value on disk and, while a process runs, a newer one in memory.  An update is made in
memory and then saved; the save may fail, and the process may die before or after it.  `Step` lists
what can happen.

`Step.account` says what survives: at any time the disk holds the result of some of the updates in
their order, every acknowledged one among them.  `Machine.runFrom_durable` is the same for the runs
of a component whose steps are such events.
-/

namespace KnShim
namespace Lib

/-- The value on disk, and the one in memory once a process has loaded it. -/
structure Durable (τ : Type) where
  disk : τ
  memory : Option τ

namespace Durable

variable {τ υ : Type}

/-- What a process works on. -/
def current (s : Durable τ) : τ := s.memory.getD s.disk

/-- What happens to a store. -/
inductive Event (υ : Type) where
  /-- An update that was acknowledged. -/
  | saved (u : υ)
  /-- An update that was made in memory and reported as not saved. -/
  | unsaved (u : υ)
  /-- An update in which the process died. -/
  | cut (u : υ)
  | looked
  | restarted

/-- The transitions. -/
inductive Step (apply : τ → υ → τ) : Durable τ → Event υ → Durable τ → Prop where
  | saved (s : Durable τ) (u : υ) :
      Step apply s (.saved u) ⟨apply s.current u, some (apply s.current u)⟩
  | unsaved (s : Durable τ) (u : υ) :
      Step apply s (.unsaved u) ⟨s.disk, some (apply s.current u)⟩
  | cutBefore (s : Durable τ) (u : υ) : Step apply s (.cut u) ⟨s.disk, none⟩
  | cutAfter (s : Durable τ) (u : υ) : Step apply s (.cut u) ⟨apply s.current u, none⟩
  | looked (s : Durable τ) : Step apply s .looked ⟨s.disk, some s.current⟩
  | restarted (s : Durable τ) : Step apply s .restarted ⟨s.disk, none⟩

/-! ## What survives -/

/-- The updates that were asked for, those that were acknowledged, and those of the process that is
running. -/
structure History (υ : Type) where
  issued : List υ
  acknowledged : List υ
  own : List υ

def History.empty : History υ := ⟨[], [], []⟩

def History.record (h : History υ) : Event υ → History υ
  | .saved u => ⟨h.issued ++ [u], h.acknowledged ++ [u], h.own ++ [u]⟩
  | .unsaved u => ⟨h.issued ++ [u], h.acknowledged, h.own ++ [u]⟩
  | .cut u => ⟨h.issued ++ [u], h.acknowledged, []⟩
  | .looked => h
  | .restarted => { h with own := [] }

/-- The disk holds the updates `kept`, and a process sees those in `pending` too. -/
structure Account (apply : τ → υ → τ) (start : τ) (h : History υ) (s : Durable τ)
    (kept pending : List υ) : Prop where
  acknowledged : h.acknowledged.Sublist kept
  issued : (kept ++ pending).Sublist h.issued
  own : h.own <:+ kept ++ pending
  disk : s.disk = kept.foldl apply start
  current : s.current = (kept ++ pending).foldl apply start

variable {apply : τ → υ → τ} {start : τ} {h : History υ} {s s' : Durable τ}
  {kept pending : List υ} {e : Event υ}

theorem Account.initial (apply : τ → υ → τ) (disk : τ) :
    Account apply disk History.empty ⟨disk, none⟩ [] [] where
  acknowledged := List.Sublist.refl _
  issued := List.Sublist.refl _
  own := List.suffix_rfl
  disk := rfl
  current := rfl

/-- One more update on top of all that a process sees. -/
theorem Account.current_concat (ha : Account apply start h s kept pending) (u : υ) :
    apply s.current u = (kept ++ (pending ++ [u])).foldl apply start := by
  rw [← List.append_assoc, List.foldl_concat, ha.current]

/-- A process that is gone takes with it what was not saved. -/
theorem Account.lost (ha : Account apply start h s kept pending) {issued : List υ}
    (hissued : h.issued.Sublist issued) :
    Account apply start ⟨issued, h.acknowledged, []⟩ ⟨s.disk, none⟩ kept [] where
  acknowledged := ha.acknowledged
  issued := by
    rw [List.append_nil]
    exact ((List.sublist_append_left kept pending).trans ha.issued).trans hissued
  own := List.nil_suffix
  disk := ha.disk
  current := by
    rw [List.append_nil]
    exact ha.disk

theorem Account.issued_concat (ha : Account apply start h s kept pending) (u : υ) :
    (kept ++ (pending ++ [u])).Sublist (h.issued ++ [u]) := by
  rw [← List.append_assoc]
  exact ha.issued.append (List.Sublist.refl [u])

theorem Account.own_concat (ha : Account apply start h s kept pending) (u : υ) :
    h.own ++ [u] <:+ kept ++ (pending ++ [u]) := by
  rcases ha.own with ⟨front, hfront⟩
  exact ⟨front, by rw [← List.append_assoc, hfront, List.append_assoc]⟩

theorem Account.acknowledged_concat (ha : Account apply start h s kept pending) (u : υ) :
    (h.acknowledged ++ [u]).Sublist (kept ++ (pending ++ [u])) := by
  have hpending : [u].Sublist (pending ++ [u]) := List.sublist_append_right pending [u]
  exact ha.acknowledged.append hpending

/-- Every event keeps the account, with other lists. -/
theorem Step.account (hstep : Step apply s e s') (ha : Account apply start h s kept pending) :
    ∃ kept' pending', Account apply start (h.record e) s' kept' pending' := by
  cases hstep with
  | saved u =>
      -- all that the process saw is on disk now
      refine ⟨kept ++ (pending ++ [u]), [], ha.acknowledged_concat u, ?_, ?_,
        ha.current_concat u, ?_⟩
      · rw [List.append_nil]
        exact ha.issued_concat u
      · rw [List.append_nil]
        exact ha.own_concat u
      · rw [List.append_nil]
        exact ha.current_concat u
  | unsaved u =>
      exact ⟨kept, pending ++ [u], ha.acknowledged, ha.issued_concat u, ha.own_concat u, ha.disk,
        ha.current_concat u⟩
  | cutBefore u => exact ⟨kept, [], ha.lost (List.sublist_append_left h.issued [u])⟩
  | cutAfter u =>
      -- the save came through, but nobody was told
      refine ⟨kept ++ (pending ++ [u]), [], ?_, ?_, List.nil_suffix, ha.current_concat u, ?_⟩
      · exact ha.acknowledged.trans (List.sublist_append_left kept _)
      · rw [List.append_nil]
        exact ha.issued_concat u
      · rw [List.append_nil]
        exact ha.current_concat u
  | looked => exact ⟨kept, pending, ha.acknowledged, ha.issued, ha.own, ha.disk, ha.current⟩
  | restarted => exact ⟨kept, [], ha.lost (List.Sublist.refl h.issued)⟩

end Durable

/-! ## Runs -/

namespace Machine

variable {σ ι ω τ υ : Type} {M : Machine σ ι ω}

/-- The history of a run. -/
def history (event : ι → ω → Durable.Event υ) (trace : List (ι × ω)) : Durable.History υ :=
  trace.foldl (fun h t => h.record (event t.1 t.2)) Durable.History.empty

/-- A component whose steps are events of a durable store: every run is accounted for. -/
theorem runFrom_durable (event : ι → ω → Durable.Event υ) (apply : τ → υ → τ)
    {R : σ → Durable τ → Prop} {G : σ → ι → Prop} {P : ι → Prop}
    (hstep : ∀ s i a, R s a → G s i → P i → ∃ s' o a',
      M.step s i = .ok (s', o) ∧ Durable.Step apply a (event i o) a' ∧ R s' a')
    {s : σ} {disk : τ} (hs : R s ⟨disk, none⟩) (is : List ι) (hG : M.Along G s is)
    (hP : ∀ i ∈ is, P i) :
    ∃ t os a kept pending, M.runFrom s is = .ok (t, os) ∧ R t a ∧
      Durable.Account apply disk (history event (is.zip os)) a kept pending := by
  rcases runFrom_history (I := fun tr t => ∃ a kept pending, R t a ∧
      Durable.Account apply disk (history event tr) a kept pending) (G := G) (P := P)
      (fun tr s i hI hi hPi => by
        rcases hI with ⟨a, kept, pending, hR, ha⟩
        rcases hstep s i a hR hi hPi with ⟨s', o, a', hrun, hevent, hR'⟩
        rcases hevent.account ha with ⟨kept', pending', ha'⟩
        refine ⟨s', o, hrun, a', kept', pending', hR', ?_⟩
        rw [history, List.foldl_concat]
        exact ha')
      is [] s ⟨_, [], [], hs, Durable.Account.initial apply disk⟩ hG hP with
    ⟨t, os, hrun, a, kept, pending, hR, ha⟩
  exact ⟨t, os, a, kept, pending, hrun, hR, ha⟩

end Machine

end Lib
end KnShim
