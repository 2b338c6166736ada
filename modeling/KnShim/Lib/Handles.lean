import KnShim.Lib.Ledger
import KnShim.Lib.Machine

/-!
# Handles — objects behind handles, in any order of calls

A component gives out handles.  A handle holds the pointer to the block of its object, or `NULL` once
the object was released.  `handler` gives for each call what it makes of its object.

`Trail.alone` is the rule for interleavings.  Whatever is done with other handles in between, an object
goes through exactly the states, and its calls return exactly what they do, when the calls on it are
made on it alone.
-/

namespace KnShim
namespace Lib

variable {β α ι : Type}

/-- What a call does with an object, which it releases when it leaves `none`; and what it does when
the pointer is `NULL`. -/
structure Handler (β α : Type) where
  released : Fallible α
  use : β → Fallible (Option β × α)

/-- The call on an object alone. -/
def Handler.alone (h : Handler β α) : Option β → Fallible (Option β × α)
  | none => do
      let a ← h.released
      return (none, a)
  | some b => h.use b

/-- The calls on one object alone. -/
def aloneMachine (handler : ι → Handler β α) (b : β) : Machine (Option β) ι α where
  init := some b
  step := fun o i => (handler i).alone o

structure Table (β : Type) where
  handles : List (Option Nat)
  blocks : Ledger β

namespace Table

def empty : Table β := ⟨[], []⟩

/-- A new object gets a block, and a handle. -/
def opened (t : Table β) (b : β) : Table β :=
  ⟨t.handles ++ [some t.blocks.length], (t.blocks.alloc b).1⟩

/-- A call on the handle `k`. -/
def on (t : Table β) (k : Nat) (h : Handler β α) : Fallible (Table β × α) := do
  match ← readAt t.handles k with
  | none => do
      let a ← h.released
      return (t, a)
  | some p => do
      let b ← t.blocks.deref p
      match ← h.use b with
      | (some b, a) => do
          let blocks ← t.blocks.store p b
          return ({ t with blocks := blocks }, a)
      | (none, a) => do
          let blocks ← t.blocks.free p
          return (⟨t.handles.set k none, blocks⟩, a)

/-- The object of a handle. -/
def object (t : Table β) (k : Nat) : Option β := ((t.handles[k]?).join).bind t.blocks.live

/-- Every pointer leads to a block, and no two to the same. -/
structure Apart (t : Table β) : Prop where
  live : ∀ k p : Nat, t.handles[k]? = some (some p) → ∃ b, t.blocks.live p = some b
  apart : ∀ k j p : Nat, t.handles[k]? = some (some p) → t.handles[j]? = some (some p) → k = j

variable {t t' : Table β} {k j p : Nat} {b : β}

theorem object_of_pointer (hk : t.handles[k]? = some (some p)) : t.object k = t.blocks.live p := by
  simp [object, hk]

theorem object_of_null (hk : t.handles[k]? = some none) : t.object k = none := by
  simp [object, hk]

theorem Apart.empty : Apart (empty : Table β) where
  live := by
    intro k p hk
    cases hk
  apart := by
    intro k j p hk
    cases hk

/-- A pointer is an old one to an old block, or the new one to the new block. -/
theorem opened_pointer (h : Apart t) (hk : (t.opened b).handles[k]? = some (some p)) :
    (t.handles[k]? = some (some p) ∧ p ≠ t.blocks.length) ∨
      (k = t.handles.length ∧ p = t.blocks.length) := by
  by_cases hlt : k < t.handles.length
  · rw [opened, List.getElem?_append_left hlt] at hk
    refine Or.inl ⟨hk, ?_⟩
    rintro rfl
    rcases h.live k _ hk with ⟨b', hb'⟩
    rw [Ledger.live_length] at hb'
    cases hb'
  · have hlast := (List.getElem?_eq_some_iff.mp hk).1
    simp only [opened, List.length_append, List.length_singleton] at hlast
    obtain rfl : k = t.handles.length := by omega
    simp only [opened, List.getElem?_concat_length, Option.some.injEq] at hk
    exact Or.inr ⟨rfl, hk.symm⟩

theorem opened_live (t : Table β) (b : β) (hp : p ≠ t.blocks.length) :
    (t.opened b).blocks.live p = t.blocks.live p := by
  rw [opened, Ledger.live_alloc, Function.update_of_ne hp]

theorem Apart.opened (h : Apart t) (b : β) : Apart (t.opened b) where
  live := by
    intro k p hk
    rcases opened_pointer h hk with ⟨hold, hne⟩ | ⟨rfl, rfl⟩
    · rw [opened_live t b hne]
      exact h.live k p hold
    · exact ⟨b, by simp [Table.opened]⟩
  apart := by
    intro k j p hk hj
    rcases opened_pointer h hk with ⟨hold, hne⟩ | ⟨rfl, rfl⟩
    · rcases opened_pointer h hj with ⟨hold', _⟩ | ⟨_, heq⟩
      · exact h.apart k j p hold hold'
      · exact absurd heq hne
    · rcases opened_pointer h hj with ⟨_, hne⟩ | ⟨rfl, _⟩
      · exact absurd rfl hne
      · rfl

@[simp] theorem opened_length (t : Table β) (b : β) :
    (t.opened b).handles.length = t.handles.length + 1 := by
  simp [opened]

theorem opened_object_new (t : Table β) (b : β) :
    (t.opened b).object t.handles.length = some b := by
  simp [object, opened]

/-- The objects that were there are as they were. -/
theorem opened_object (h : Apart t) (b : β) (hk : k < t.handles.length) :
    (t.opened b).object k = t.object k := by
  have hsame : (t.opened b).handles[k]? = t.handles[k]? := List.getElem?_append_left hk
  cases hhandle : t.handles[k]? with
  | none => exact absurd hk (Nat.not_lt_of_le (List.getElem?_eq_none_iff.mp hhandle))
  | some handle =>
      cases handle with
      | none => rw [object_of_null (hsame.trans hhandle), object_of_null hhandle]
      | some p =>
          have hne : p ≠ t.blocks.length := by
            rintro rfl
            rcases h.live k _ hhandle with ⟨b', hb'⟩
            rw [Ledger.live_length] at hb'
            cases hb'
          rw [object_of_pointer (hsame.trans hhandle), object_of_pointer hhandle,
            opened_live t b hne]

/-- A call on the handle `k` leaves the other objects as they were. -/
structure Others (t : Table β) (k : Nat) (t' : Table β) : Prop where
  length : t'.handles.length = t.handles.length
  object : ∀ j, j ≠ k → t'.object j = t.object j
  apart : Apart t'

/-- The object gets a new state. -/
theorem others_store {blocks : Ledger β} (h : Apart t) (hk : t.handles[k]? = some (some p))
    (hlive : blocks.live = Function.update t.blocks.live p (some b)) :
    Others t k { t with blocks := blocks } ∧
      ({ t with blocks := blocks } : Table β).object k = some b := by
  refine ⟨⟨rfl, ?_, ⟨?_, h.apart⟩⟩, ?_⟩
  · intro j hj
    cases hhandle : t.handles[j]? with
    | none => simp [object, hhandle]
    | some handle =>
        cases handle with
        | none => simp [object, hhandle]
        | some q =>
            have hne : q ≠ p := by
              rintro rfl
              exact hj (h.apart j k q hhandle hk)
            rw [object_of_pointer hhandle,
              object_of_pointer (t := { t with blocks := blocks }) hhandle, hlive,
              Function.update_of_ne hne]
  · intro j q hj
    by_cases hq : q = p
    · subst hq
      exact ⟨b, by rw [hlive, Function.update_self]⟩
    · rw [hlive, Function.update_of_ne hq]
      exact h.live j q hj
  · rw [object_of_pointer (t := { t with blocks := blocks }) hk, hlive, Function.update_self]

/-- The object is released. -/
theorem others_free {blocks : Ledger β} (h : Apart t) (hk : t.handles[k]? = some (some p))
    (hlive : blocks.live = Function.update t.blocks.live p none) :
    Others t k ⟨t.handles.set k none, blocks⟩ ∧
      (⟨t.handles.set k none, blocks⟩ : Table β).object k = none := by
  have hlt : k < t.handles.length := (List.getElem?_eq_some_iff.mp hk).1
  have hother : ∀ j q : Nat, (t.handles.set k none)[j]? = some (some q) →
      t.handles[j]? = some (some q) ∧ q ≠ p := by
    intro j q hj
    have hne : k ≠ j := by
      rintro rfl
      rw [List.getElem?_set_self hlt] at hj
      cases hj
    rw [List.getElem?_set_ne hne] at hj
    refine ⟨hj, ?_⟩
    rintro rfl
    exact hne (h.apart k j q hk hj)
  refine ⟨⟨List.length_set, ?_, ⟨?_, ?_⟩⟩, ?_⟩
  · intro j hj
    have hsame : (t.handles.set k none)[j]? = t.handles[j]? := List.getElem?_set_ne (Ne.symm hj)
    cases hhandle : t.handles[j]? with
    | none => simp [object, hhandle, hsame]
    | some handle =>
        cases handle with
        | none => simp [object, hhandle, hsame]
        | some q =>
            have hset := hsame.trans hhandle
            rw [object_of_pointer hhandle,
              object_of_pointer (t := ⟨t.handles.set k none, blocks⟩) hset, hlive,
              Function.update_of_ne (hother j q hset).2]
  · intro j q hj
    rcases hother j q hj with ⟨hold, hne⟩
    rw [hlive, Function.update_of_ne hne]
    exact h.live j q hold
  · intro i j q hi hj
    exact h.apart i j q (hother i q hi).1 (hother j q hj).1
  · exact object_of_null (List.getElem?_set_self hlt)

/-- A call on a handle is the call on its object alone. -/
theorem on_alone (h : Apart t) (hk : k < t.handles.length) (f : Handler β α) :
    match f.alone (t.object k) with
    | .error e => t.on k f = .error e
    | .ok (o, a) => ∃ t', t.on k f = .ok (t', a) ∧ t'.object k = o ∧ Others t k t' := by
  have hget := List.getElem?_eq_getElem hk
  cases hhandle : t.handles[k] with
  | none =>
      rw [hhandle] at hget
      rw [object_of_null hget]
      simp only [Handler.alone, on, readAt_eq_ok.mpr hget, Fallible.ok_bind]
      cases f.released with
      | error e => rfl
      | ok a => exact ⟨t, rfl, object_of_null hget, rfl, fun _ _ => rfl, h⟩
  | some p =>
      rw [hhandle] at hget
      rcases h.live k p hget with ⟨b, hlive⟩
      rw [object_of_pointer hget, hlive]
      simp only [Handler.alone, on, readAt_eq_ok.mpr hget, Fallible.ok_bind,
        Ledger.deref_of_live hlive]
      cases huse : f.use b with
      | error e => rfl
      | ok r =>
          rcases r with ⟨o, a⟩
          cases o with
          | some b' =>
              rcases Ledger.store_of_live hlive b' with ⟨blocks, hstore, hblocks⟩
              rcases others_store h hget hblocks with ⟨hothers, hobject⟩
              exact ⟨_, by simp only [Fallible.ok_bind, hstore]; rfl, hobject, hothers⟩
          | none =>
              rcases Ledger.free_of_live hlive with ⟨blocks, hfree, hblocks⟩
              rcases others_free h hget hblocks with ⟨hothers, hobject⟩
              exact ⟨_, by simp only [Fallible.ok_bind, hfree]; rfl, hobject, hothers⟩

end Table

/-! ## Histories -/

/-- What happens to a table: a handle is given out, or used for a call that returns. -/
inductive TableEvent (β ι α : Type) where
  | opened (k : Nat) (b : β)
  | used (k : Nat) (i : ι) (a : α)
  | idle

inductive TableStep (handler : ι → Handler β α) :
    Table β → TableEvent β ι α → Table β → Prop where
  | opened (t : Table β) (b : β) : TableStep handler t (.opened t.handles.length b) (t.opened b)
  | used {t t' : Table β} {k : Nat} {i : ι} {a : α} (hk : k < t.handles.length)
      (hrun : t.on k (handler i) = .ok (t', a)) : TableStep handler t (.used k i a) t'
  | idle (t : Table β) : TableStep handler t .idle t

/-- The calls on the handle `k`, with what they returned. -/
def usesOf (k : Nat) (tr : List (TableEvent β ι α)) : List (ι × α) :=
  tr.filterMap fun e =>
    match e with
    | .used j i a => if j = k then some (i, a) else none
    | _ => none

/-- What holds after a history: every object is as its own calls have left it. -/
structure Alone (handler : ι → Handler β α) (tr : List (TableEvent β ι α)) (t : Table β) :
    Prop where
  apart : t.Apart
  given : ∀ k, k < t.handles.length ↔ ∃ b, .opened k b ∈ tr
  alone : ∀ front k b back, tr = front ++ .opened k b :: back →
    (aloneMachine handler b).run ((usesOf k back).map Prod.fst) =
      .ok (t.object k, (usesOf k back).map Prod.snd)

variable {handler : ι → Handler β α} {t t' : Table β} {tr : List (TableEvent β ι α)}
  {e : TableEvent β ι α}

theorem usesOf_append (k : Nat) (tr tr' : List (TableEvent β ι α)) :
    usesOf k (tr ++ tr') = usesOf k tr ++ usesOf k tr' :=
  List.filterMap_append

/-- The next event, which is not about `k`. -/
theorem Alone.skip (h : Alone handler tr t)
    (hobject : ∀ k, k < t.handles.length → usesOf k [e] = [] → t'.object k = t.object k)
    {front back : List (TableEvent β ι α)} {k : Nat} {b : β}
    (htr : tr = front ++ .opened k b :: back) (hother : usesOf k [e] = []) :
    (aloneMachine handler b).run ((usesOf k (back ++ [e])).map Prod.fst) =
      .ok (t'.object k, (usesOf k (back ++ [e])).map Prod.snd) := by
  have hk : k < t.handles.length := (h.given k).mpr ⟨b, by rw [htr]; simp⟩
  rw [usesOf_append, hother, List.append_nil, hobject k hk hother]
  exact h.alone front k b back htr

/-- A new object is as it was opened. -/
theorem Alone.opened (h : Alone handler tr t) (b : β) :
    Alone handler (tr ++ [.opened t.handles.length b]) (t.opened b) := by
  refine ⟨h.apart.opened b, ?_, ?_⟩
  · intro k
    rw [Table.opened_length, Nat.lt_succ_iff_lt_or_eq, h.given k]
    constructor
    · rintro (⟨b', hmem⟩ | rfl)
      · exact ⟨b', List.mem_append_left _ hmem⟩
      · exact ⟨b, by simp⟩
    · rintro ⟨b', hmem⟩
      rcases List.mem_append.mp hmem with hold | hnew
      · exact Or.inl ⟨b', hold⟩
      · cases List.mem_singleton.mp hnew
        exact Or.inr rfl
  · intro front k b' back htr
    rcases Machine.concat_eq_append_cons htr with ⟨rfl, _, he⟩ | ⟨mid, rfl, htr'⟩
    · cases he
      rw [Table.opened_object_new]
      rfl
    · exact h.skip (fun k hk _ => Table.opened_object h.apart b hk) htr' rfl

/-- A call changes its object as it would alone, and no other. -/
theorem Alone.used (h : Alone handler tr t) {k : Nat} {i : ι} {a : α} (hk : k < t.handles.length)
    (hrun : t.on k (handler i) = .ok (t', a)) : Alone handler (tr ++ [.used k i a]) t' := by
  have halone := Table.on_alone h.apart hk (handler i)
  cases hsolo : (handler i).alone (t.object k) with
  | error e =>
      rw [hsolo] at halone
      simp only [hrun] at halone
      cases halone
  | ok r =>
      rw [hsolo] at halone
      rcases halone with ⟨t₁, hrun₁, hobject, hothers⟩
      rw [hrun] at hrun₁
      cases hrun₁
      refine ⟨hothers.apart, ?_, ?_⟩
      · intro j
        rw [hothers.length, h.given j]
        simp
      · intro front j b back htr
        rcases Machine.concat_eq_append_cons htr with ⟨_, _, he⟩ | ⟨mid, rfl, htr'⟩
        · cases he
        · by_cases hj : j = k
          · -- its own call comes behind the ones before it
            subst hj
            have hlast : usesOf j [(.used j i r.2 : TableEvent β ι α)] = [(i, r.2)] := by
              simp [usesOf]
            rw [usesOf_append, hlast, List.map_append, List.map_append]
            refine Machine.runFrom_concat (h.alone front j b mid htr') ?_
            rw [hobject]
            exact hsolo
          · refine h.skip (fun j _ hnone => hothers.object j ?_) htr' ?_
            · rintro rfl
              simp [usesOf] at hnone
            · simp [usesOf, Ne.symm hj]

theorem Alone.step (h : Alone handler tr t) (hstep : TableStep handler t e t') :
    Alone handler (tr ++ [e]) t' := by
  cases hstep with
  | opened b => exact h.opened b
  | used hk hrun => exact h.used hk hrun
  | idle =>
      refine ⟨h.apart, ?_, ?_⟩
      · intro k
        rw [h.given k]
        simp
      · intro front k b back htr
        rcases Machine.concat_eq_append_cons htr with ⟨_, _, he⟩ | ⟨mid, rfl, htr'⟩
        · cases he
        · exact h.skip (fun _ _ _ => rfl) htr' rfl

/-- Behind every history, each object that was opened is as the calls on it alone would have left it,
and they returned what they would have. -/
theorem Trail.alone (h : Trail (TableStep handler) Table.empty tr t) : Alone handler tr t := by
  refine h.keeps ⟨Table.Apart.empty, ?_, ?_⟩ (fun _ _ _ _ halone hstep => halone.step hstep)
  · intro k
    simp [Table.empty]
  · intro front k b back htr
    exact absurd htr (by simp)

/-- A call that faults does so on its object alone. -/
theorem Alone.fault (h : Alone handler tr t) {k : Nat} {i : ι} {err : Fault}
    (hk : k < t.handles.length) (hfault : t.on k (handler i) = .error err) :
    ∃ front b back, tr = front ++ .opened k b :: back ∧
      (aloneMachine handler b).run ((usesOf k back).map Prod.fst ++ [i]) = .error err := by
  rcases (h.given k).mp hk with ⟨b, hmem⟩
  rcases List.append_of_mem hmem with ⟨front, back, htr⟩
  refine ⟨front, b, back, htr, Machine.runFrom_concat_error (h.alone front k b back htr) ?_⟩
  have halone := Table.on_alone h.apart hk (handler i)
  cases hsolo : (handler i).alone (t.object k) with
  | error e' =>
      rw [hsolo] at halone
      simp only [hfault] at halone
      cases halone
      exact hsolo
  | ok r =>
      rw [hsolo] at halone
      rcases halone with ⟨t', hrun, _⟩
      rw [hfault] at hrun
      cases hrun

end Lib
end KnShim
