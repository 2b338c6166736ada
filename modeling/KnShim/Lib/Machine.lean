import KnShim.Lib.Fallible
import Mathlib.Data.List.Forall2

/-!
# Machine — components driven by calls, and their refinement

A component is a start state and a `step` that answers one call or faults.  An abstract component
(`Spec`) has a total step.  This file packages the inductions over runs once:

* `Machine.runFrom_keeps` : what every step keeps holds in every state that is reached, and
  `Machine.runFrom_traces` and `Machine.runFrom_history` the same with what happened so far;
* `Machine.runFrom_total` : when every step answers and keeps an invariant, every run does;
* `Machine.runFrom_refines` : a step-by-step simulation makes every run return exactly the answers
  of the abstract component;
* `Machine.runFrom_matches_iff`, `Machine.runFrom_answers_iff` : the same for a component that
  answers some calls wrongly, with the exact condition on the calls;
* `Machine.runFrom_outputs_iff` : which runs have good outputs only, by what the steps do.

The simulation may be restricted by a guard on the abstract state and the call; `Spec.Admits` says
that the guard holds at every step of the abstract run.
-/

namespace KnShim
namespace Lib

/-- A component: `step` answers one call in a state, or faults. -/
structure Machine (σ ι ω : Type) where
  init : σ
  step : σ → ι → Fallible (σ × ω)

/-- An abstract component: every call is answered. -/
structure Spec (τ ι ω : Type) where
  init : τ
  step : τ → ι → τ × ω

variable {σ τ ι ω : Type}

namespace Spec

/-- The state after a list of calls. -/
def final (S : Spec τ ι ω) : τ → List ι → τ
  | a, [] => a
  | a, i :: is => S.final (S.step a i).1 is

/-- The answers to a list of calls. -/
def answers (S : Spec τ ι ω) : τ → List ι → List ω
  | _, [] => []
  | a, i :: is => (S.step a i).2 :: S.answers (S.step a i).1 is

/-- The guard `G` holds at every step of the run from `a`. -/
def Admits (S : Spec τ ι ω) (G : τ → ι → Prop) : τ → List ι → Prop
  | _, [] => True
  | a, i :: is => G a i ∧ S.Admits G (S.step a i).1 is

/-- A guard on the calls alone holds along a run when it holds of every call. -/
theorem admits_iff_forall (S : Spec τ ι ω) {P : ι → Prop} (is : List ι) (a : τ) :
    S.Admits (fun _ i => P i) a is ↔ ∀ i ∈ is, P i := by
  induction is generalizing a with
  | nil => exact iff_of_true trivial (fun i hi => by cases hi)
  | cons i is ih =>
      rw [List.forall_mem_cons]
      exact and_congr_right (fun _ => ih _)

theorem admits_of_forall (S : Spec τ ι ω) {P : ι → Prop} (is : List ι) (a : τ)
    (h : ∀ i ∈ is, P i) : S.Admits (fun _ i => P i) a is :=
  (S.admits_iff_forall is a).mpr h

end Spec

/-- A history of events, each of which a relation allows. -/
inductive Trail {ε : Type} (allows : τ → ε → τ → Prop) : τ → List ε → τ → Prop where
  | nil (a : τ) : Trail allows a [] a
  | concat {a b c : τ} {tr : List ε} {e : ε} (h : Trail allows a tr b) (he : allows b e c) :
      Trail allows a (tr ++ [e]) c

/-- What every allowed event keeps holds behind a history. -/
theorem Trail.keeps {ε : Type} {allows : τ → ε → τ → Prop} {I : List ε → τ → Prop} {a b : τ}
    {tr : List ε} (h : Trail allows a tr b) (hinit : I [] a)
    (hstep : ∀ tr b e c, I tr b → allows b e c → I (tr ++ [e]) c) : I tr b := by
  induction h with
  | nil => exact hinit
  | concat _ he ih => exact hstep _ _ _ _ ih he

namespace Machine

variable (M : Machine σ ι ω)

/-- Answer a list of calls, starting in `s`. -/
def runFrom : σ → List ι → Fallible (σ × List ω)
  | s, [] => .ok (s, [])
  | s, i :: is => do
      let (s', o) ← M.step s i
      let (s'', os) ← runFrom s' is
      return (s'', o :: os)

def run (is : List ι) : Fallible (σ × List ω) :=
  M.runFrom M.init is

variable {M}

theorem runFrom_cons {s s' : σ} {i : ι} {o : ω} (is : List ι) (h : M.step s i = .ok (s', o)) :
    M.runFrom s (i :: is) = (M.runFrom s' is >>= fun r => .ok (r.1, o :: r.2)) := by
  simp [runFrom, h]

/-- A run that goes on with one more call. -/
theorem runFrom_concat {is : List ι} : ∀ {s t t' : σ} {os : List ω} {i : ι} {o : ω},
    M.runFrom s is = .ok (t, os) → M.step t i = .ok (t', o) →
      M.runFrom s (is ++ [i]) = .ok (t', os ++ [o]) := by
  induction is with
  | nil =>
      intro s t t' os i o hrun hstep
      cases hrun
      exact (runFrom_cons [] hstep).trans rfl
  | cons j is ih =>
      intro s t t' os i o hrun hstep
      rcases Fallible.bind_eq_ok.mp hrun with ⟨⟨s', o'⟩, hfirst, hrun⟩
      rcases Fallible.bind_eq_ok.mp hrun with ⟨⟨t'', os'⟩, hrest, hrun⟩
      cases hrun
      rw [List.cons_append, runFrom_cons _ hfirst, ih hrest hstep]
      rfl

/-- A run that goes on with a call that faults. -/
theorem runFrom_concat_error {is : List ι} : ∀ {s t : σ} {os : List ω} {i : ι} {e : Fault},
    M.runFrom s is = .ok (t, os) → M.step t i = .error e →
      M.runFrom s (is ++ [i]) = .error e := by
  induction is with
  | nil =>
      intro s t os i e hrun hstep
      cases hrun
      simp [runFrom, hstep]
  | cons j is ih =>
      intro s t os i e hrun hstep
      rcases Fallible.bind_eq_ok.mp hrun with ⟨⟨s', o'⟩, hfirst, hrun⟩
      rcases Fallible.bind_eq_ok.mp hrun with ⟨⟨t'', os'⟩, hrest, hrun⟩
      cases hrun
      rw [List.cons_append, runFrom_cons _ hfirst, ih hrest hstep]
      rfl

/-- There is one answer to each call. -/
theorem runFrom_length (is : List ι) : ∀ {s t : σ} {os : List ω}, M.runFrom s is = .ok (t, os) →
    os.length = is.length := by
  induction is with
  | nil =>
      intro s t os hrun
      cases hrun
      rfl
  | cons i is ih =>
      intro s t os hrun
      rcases Fallible.bind_eq_ok.mp hrun with ⟨⟨s', o⟩, _, hrun⟩
      rcases Fallible.bind_eq_ok.mp hrun with ⟨⟨t', os'⟩, hrest, hrun⟩
      cases hrun
      rw [List.length_cons, List.length_cons, ih hrest]

/-- The guard `G` holds at every step of the run from `s`, as far as the run gets. -/
def Along (M : Machine σ ι ω) (G : σ → ι → Prop) : σ → List ι → Prop
  | _, [] => True
  | s, i :: is => G s i ∧ ∀ s' o, M.step s i = .ok (s', o) → M.Along G s' is

theorem along_cons {M : Machine σ ι ω} {G : σ → ι → Prop} {s s' : σ} {i : ι} {o : ω} {is : List ι}
    (h : M.step s i = .ok (s', o)) : M.Along G s (i :: is) ↔ G s i ∧ M.Along G s' is := by
  constructor
  · rintro ⟨hi, hrest⟩
    exact ⟨hi, hrest s' o h⟩
  · rintro ⟨hi, hrest⟩
    refine ⟨hi, fun s₁ o₁ h₁ => ?_⟩
    rw [h] at h₁
    cases h₁
    exact hrest

theorem along_error {M : Machine σ ι ω} {G : σ → ι → Prop} {s : σ} {i : ι} {e : Fault} {is : List ι}
    (h : M.step s i = .error e) : M.Along G s (i :: is) ↔ G s i := by
  constructor
  · exact And.left
  · intro hi
    refine ⟨hi, fun s₁ o₁ h₁ => ?_⟩
    rw [h] at h₁
    cases h₁

theorem along_of_forall {G : σ → ι → Prop} (hG : ∀ s i, G s i) :
    ∀ (is : List ι) (s : σ), M.Along G s is := by
  intro is
  induction is with
  | nil => exact fun _ => trivial
  | cons i is ih => exact fun s => ⟨hG s i, fun s' _ _ => ih s'⟩

instance decidableAlong (M : Machine σ ι ω) (G : σ → ι → Prop) [∀ s i, Decidable (G s i)] :
    (s : σ) → (is : List ι) → Decidable (M.Along G s is)
  | _, [] => inferInstanceAs (Decidable True)
  | s, i :: is =>
      match h : M.step s i with
      | .ok (s', _) =>
          have := decidableAlong M G s' is
          decidable_of_iff _ (along_cons h).symm
      | .error _ => decidable_of_iff _ (along_error h).symm

/-- When every step that answers keeps `I`, every run that answers keeps `I`. -/
theorem runFrom_keeps {I : σ → Prop}
    (hstep : ∀ s i s' o, I s → M.step s i = .ok (s', o) → I s') :
    ∀ (is : List ι) (s t : σ) (os : List ω), I s → M.runFrom s is = .ok (t, os) → I t := by
  intro is
  induction is with
  | nil =>
      intro s t os hs hrun
      cases hrun
      exact hs
  | cons i is ih =>
      intro s t os hs hrun
      rcases Fallible.bind_eq_ok.mp hrun with ⟨⟨s', o⟩, hfirst, hrun⟩
      rcases Fallible.bind_eq_ok.mp hrun with ⟨⟨t', os'⟩, hrest, hrun⟩
      cases hrun
      exact ih s' t os' (hstep s i s' o hs hfirst) hrest

/-- The same with what was answered so far, along a guard. -/
theorem runFrom_traces_along {I : List ω → σ → Prop} {G : σ → ι → Prop}
    (hstep : ∀ tr s i s' o, I tr s → G s i → M.step s i = .ok (s', o) → I (tr ++ [o]) s') :
    ∀ (is : List ι) (tr : List ω) (s t : σ) (os : List ω), I tr s → M.Along G s is →
      M.runFrom s is = .ok (t, os) → I (tr ++ os) t := by
  intro is
  induction is with
  | nil =>
      intro tr s t os hs _ hrun
      cases hrun
      simpa using hs
  | cons i is ih =>
      intro tr s t os hs hG hrun
      rcases Fallible.bind_eq_ok.mp hrun with ⟨⟨s', o⟩, hfirst, hrun⟩
      rcases Fallible.bind_eq_ok.mp hrun with ⟨⟨t', os'⟩, hrest, hrun⟩
      cases hrun
      have hnext : I (tr ++ [o]) s' := hstep tr s i s' o hs hG.1 hfirst
      simpa using ih (tr ++ [o]) s' t os' hnext (hG.2 s' o hfirst) hrest

theorem runFrom_traces {I : List ω → σ → Prop}
    (hstep : ∀ tr s i s' o, I tr s → M.step s i = .ok (s', o) → I (tr ++ [o]) s')
    (is : List ι) (tr : List ω) (s t : σ) (os : List ω) (hs : I tr s)
    (hrun : M.runFrom s is = .ok (t, os)) : I (tr ++ os) t :=
  runFrom_traces_along (G := fun _ _ => True) (fun tr s i s' o hs _ => hstep tr s i s' o hs) is tr s
    t os hs (along_of_forall (fun _ _ => trivial) is s) hrun

/-- The same with the calls and their answers so far, when every step answers. -/
theorem runFrom_history {I : List (ι × ω) → σ → Prop} {G : σ → ι → Prop} {P : ι → Prop}
    (hstep : ∀ tr s i, I tr s → G s i → P i →
      ∃ s' o, M.step s i = .ok (s', o) ∧ I (tr ++ [(i, o)]) s') :
    ∀ (is : List ι) (tr : List (ι × ω)) (s : σ), I tr s → M.Along G s is → (∀ i ∈ is, P i) →
      ∃ t os, M.runFrom s is = .ok (t, os) ∧ I (tr ++ is.zip os) t := by
  intro is
  induction is with
  | nil =>
      intro tr s hs _ _
      exact ⟨s, [], rfl, by simpa using hs⟩
  | cons i is ih =>
      intro tr s hs hG hP
      rcases List.forall_mem_cons.mp hP with ⟨hPi, hPs⟩
      rcases hstep tr s i hs hG.1 hPi with ⟨s', o, hfirst, hs'⟩
      rcases ih (tr ++ [(i, o)]) s' hs' (hG.2 s' o hfirst) hPs with ⟨t, os, hrest, ht⟩
      refine ⟨t, o :: os, ?_, by simpa using ht⟩
      rw [runFrom_cons is hfirst, hrest]
      rfl

/-- When every step does to the abstract state what a relation allows, a run is a trail of it. -/
theorem runFrom_trail (abs : σ → τ) (allows : τ → ι × ω → τ → Prop)
    (hstep : ∀ s i, ∃ s' o, M.step s i = .ok (s', o) ∧ allows (abs s) (i, o) (abs s')) :
    ∀ (is : List ι) (s : σ), ∃ t os, M.runFrom s is = .ok (t, os) ∧
      Trail allows (abs s) (is.zip os) (abs t) := by
  intro is s
  rcases runFrom_history (I := fun tr t => Trail allows (abs s) tr (abs t))
      (G := fun _ _ => True) (P := fun _ => True)
      (fun tr t i htr _ _ => by
        rcases hstep t i with ⟨t', o, ht', hallows⟩
        exact ⟨t', o, ht', htr.concat hallows⟩)
      is [] s (.nil _) (along_of_forall (fun _ _ => trivial) is s) (fun _ _ => trivial) with
    ⟨t, os, hrun, htrail⟩
  exact ⟨t, os, hrun, htrail⟩

/-- Where something stands in a history with a new last event. -/
theorem concat_eq_append_cons {α : Type} {tr front back : List α} {c x : α}
    (h : tr ++ [c] = front ++ x :: back) :
    (back = [] ∧ front = tr ∧ x = c) ∨ ∃ mid, back = mid ++ [c] ∧ tr = front ++ x :: mid := by
  rcases List.eq_nil_or_concat back with rfl | ⟨mid, last, hback⟩
  · rcases List.append_inj' h rfl with ⟨htr, hc⟩
    cases hc
    exact Or.inl ⟨rfl, htr.symm, rfl⟩
  · rw [List.concat_eq_append] at hback
    subst hback
    have hassoc : tr ++ [c] = (front ++ x :: mid) ++ [last] := by simpa using h
    rcases List.append_inj' hassoc rfl with ⟨htr, hc⟩
    cases hc
    exact Or.inr ⟨mid, rfl, htr⟩

/-- When every step answers and keeps `I`, every run answers and keeps `I`. -/
theorem runFrom_total {I : σ → Prop} {P : ι → Prop}
    (hstep : ∀ s i, I s → P i → ∃ s' o, M.step s i = .ok (s', o) ∧ I s') :
    ∀ (is : List ι) (s : σ), I s → (∀ i ∈ is, P i) →
      ∃ t os, M.runFrom s is = .ok (t, os) ∧ I t := by
  intro is
  induction is with
  | nil =>
      intro s hs _
      exact ⟨s, [], rfl, hs⟩
  | cons i is ih =>
      intro s hs hP
      rcases hstep s i hs (hP i (by simp)) with ⟨s', o, hs', hI⟩
      rcases ih s' hI (fun j hj => hP j (by simp [hj])) with ⟨t, os, ht, hIt⟩
      refine ⟨t, o :: os, ?_, hIt⟩
      rw [runFrom_cons is hs', ht]
      rfl

/-- When the steps that meet `G` answer with a good output and the others do not, a run answers with
good outputs exactly when all its steps meet `G`. -/
theorem runFrom_outputs_iff {I : σ → Prop} {H G : σ → ι → Prop} {Q : ω → Prop}
    (hgood : ∀ s i, I s → H s i → G s i → ∃ s' o, M.step s i = .ok (s', o) ∧ I s' ∧ Q o)
    (hbad : ∀ s i, I s → H s i → ¬ G s i → ∀ s' o, M.step s i = .ok (s', o) → ¬ Q o) :
    ∀ (is : List ι) (s : σ), I s → M.Along H s is →
      ((∃ t os, M.runFrom s is = .ok (t, os) ∧ ∀ o ∈ os, Q o) ↔ M.Along G s is) := by
  -- induction on the calls; the invariant is carried along by the good steps
  intro is
  induction is with
  | nil =>
      intro s _ _
      exact iff_of_true ⟨s, [], rfl, by simp⟩ trivial
  | cons i is ih =>
      intro s hs hH
      by_cases hi : G s i
      · rcases hgood s i hs hH.1 hi with ⟨s', o, hstep, hs', ho⟩
        have hrest := ih s' hs' (hH.2 s' o hstep)
        rw [along_cons hstep]
        constructor
        · rintro ⟨t, os, hrun, hos⟩
          rw [runFrom_cons is hstep] at hrun
          rcases Fallible.bind_eq_ok.mp hrun with ⟨⟨t', os'⟩, hrun', heq⟩
          cases heq
          exact ⟨hi, hrest.mp ⟨t', os', hrun', fun o' ho' => hos o' (List.mem_cons_of_mem _ ho')⟩⟩
        · rintro ⟨_, hall⟩
          rcases hrest.mpr hall with ⟨t, os, hrun, hos⟩
          refine ⟨t, o :: os, ?_, List.forall_mem_cons.mpr ⟨ho, hos⟩⟩
          rw [runFrom_cons is hstep, hrun]
          rfl
      · -- the first bad output cannot be made up for
        refine iff_of_false ?_ (fun hall => hi hall.1)
        rintro ⟨t, os, hrun, hos⟩
        rcases Fallible.bind_eq_ok.mp hrun with ⟨⟨s', o⟩, hstep, hrun⟩
        rcases Fallible.bind_eq_ok.mp hrun with ⟨⟨t', os'⟩, _, heq⟩
        cases heq
        exact hbad s i hs hH.1 hi s' o hstep (hos o List.mem_cons_self)

/-- A guarded step-by-step simulation gives every admitted run the abstract answers. -/
theorem runFrom_refines {S : Spec τ ι ω} {R : σ → τ → Prop} {G : τ → ι → Prop}
    (hsim : ∀ s a i, R s a → G a i →
      ∃ s', M.step s i = .ok (s', (S.step a i).2) ∧ R s' (S.step a i).1) :
    ∀ (is : List ι) (s : σ) (a : τ), R s a → S.Admits G a is →
      ∃ s', M.runFrom s is = .ok (s', S.answers a is) ∧ R s' (S.final a is) := by
  intro is
  induction is with
  | nil =>
      intro s a hR _
      exact ⟨s, rfl, hR⟩
  | cons i is ih =>
      intro s a hR hG
      rcases hsim s a i hR hG.1 with ⟨s₁, hstep, hR₁⟩
      rcases ih s₁ _ hR₁ hG.2 with ⟨s₂, hrun, hR₂⟩
      refine ⟨s₂, ?_, hR₂⟩
      rw [runFrom_cons is hstep, hrun]
      rfl

/-- A run that returns is a step that returns and a run that returns. -/
theorem runFrom_cons_eq_ok {s t : σ} {i : ι} {is : List ι} {o : ω} {os : List ω} :
    M.runFrom s (i :: is) = .ok (t, o :: os) ↔
      ∃ s', M.step s i = .ok (s', o) ∧ M.runFrom s' is = .ok (t, os) := by
  constructor
  · intro h
    rcases Fallible.bind_eq_ok.mp h with ⟨⟨s', o'⟩, hstep, h⟩
    rcases Fallible.bind_eq_ok.mp h with ⟨⟨t', os'⟩, hrun, h⟩
    cases h
    exact ⟨s', hstep, hrun⟩
  · rintro ⟨s', hstep, hrun⟩
    rw [runFrom_cons is hstep, hrun]
    rfl

/-- When the calls that meet `P` in an abstract state are answered as it says and simulated, and the
others are answered otherwise, the answers of a run match exactly when all its calls meet `P`. -/
theorem runFrom_matches_iff {α : Type} {S : Spec τ ι α} {A : α → ω → Prop} {R : σ → τ → Prop}
    {G P : τ → ι → Prop}
    (hsim : ∀ s a i, R s a → G a i → P a i →
      ∃ s' o, M.step s i = .ok (s', o) ∧ A (S.step a i).2 o ∧ R s' (S.step a i).1)
    (hbad : ∀ s a i, R s a → G a i → ¬ P a i →
      ∀ s' o, M.step s i = .ok (s', o) → ¬ A (S.step a i).2 o) :
    ∀ (is : List ι) (s : σ) (a : τ), R s a → S.Admits G a is →
      ((∃ t os, M.runFrom s is = .ok (t, os) ∧ List.Forall₂ A (S.answers a is) os) ↔
        S.Admits P a is) := by
  -- induction on the calls; the simulation carries the states along
  intro is
  induction is with
  | nil =>
      intro s a _ _
      exact iff_of_true ⟨s, [], rfl, .nil⟩ trivial
  | cons i is ih =>
      intro s a hR hG
      by_cases hi : P a i
      -- a call that is answered rightly leaves two states that are related again
      · rcases hsim s a i hR hG.1 hi with ⟨s', o, hstep, ho, hR'⟩
        have hrest := ih s' _ hR' hG.2
        constructor
        · rintro ⟨t, os, hrun, hos⟩
          cases hos with
          | cons _ hos =>
              rcases runFrom_cons_eq_ok.mp hrun with ⟨s₁, hstep₁, hrun₁⟩
              rw [hstep] at hstep₁
              cases hstep₁
              exact ⟨hi, hrest.mp ⟨t, _, hrun₁, hos⟩⟩
        · rintro ⟨_, hall⟩
          rcases hrest.mpr hall with ⟨t, os, hrun, hos⟩
          exact ⟨t, o :: os, runFrom_cons_eq_ok.mpr ⟨s', hstep, hrun⟩, .cons ho hos⟩
      · -- the first wrong answer cannot be made up for
        refine iff_of_false ?_ (fun hall => hi hall.1)
        rintro ⟨t, os, hrun, hos⟩
        cases hos with
        | cons ho _ =>
            rcases runFrom_cons_eq_ok.mp hrun with ⟨s₁, hstep₁, _⟩
            exact hbad s a i hR hG.1 hi s₁ _ hstep₁ ho

/-- When the calls that satisfy `P` are simulated and the others are answered wrongly, a run is
answered rightly exactly when all of its calls satisfy `P`. -/
theorem runFrom_answers_iff {S : Spec τ ι ω} {R : σ → τ → Prop} {G : τ → ι → Prop} {P : ι → Prop}
    (hsim : ∀ s a i, R s a → G a i → P i →
      ∃ s', M.step s i = .ok (s', (S.step a i).2) ∧ R s' (S.step a i).1)
    (hbad : ∀ s a i, R s a → G a i → ¬ P i → ∀ s', M.step s i ≠ .ok (s', (S.step a i).2))
    (is : List ι) (s : σ) (a : τ) (hR : R s a) (hG : S.Admits G a is) :
    (∃ t, M.runFrom s is = .ok (t, S.answers a is)) ↔ ∀ i ∈ is, P i := by
  have hmatches : (∃ t os, M.runFrom s is = .ok (t, os) ∧ List.Forall₂ Eq (S.answers a is) os) ↔
      S.Admits (fun _ i => P i) a is := by
    refine runFrom_matches_iff ?_ ?_ is s a hR hG
    · intro s a i hR hG hi
      rcases hsim s a i hR hG hi with ⟨s', hstep, hR'⟩
      exact ⟨s', _, hstep, rfl, hR'⟩
    · intro s a i hR hG hi s' o hstep ho
      exact hbad s a i hR hG hi s' (ho ▸ hstep)
  rw [← S.admits_iff_forall is a, ← hmatches]
  constructor
  · rintro ⟨t, ht⟩
    exact ⟨t, _, ht, List.forall₂_eq_eq_eq ▸ rfl⟩
  · rintro ⟨t, os, ht, hos⟩
    rw [List.forall₂_eq_eq_eq] at hos
    exact ⟨t, hos ▸ ht⟩

end Machine

end Lib
end KnShim
