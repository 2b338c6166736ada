import KnShim.LeafHook.Hook
import KnShim.Lib.Machine

/-!
# Reload — a key press that is simulated once

`knReload` asks for a reload, and the next time the game asks whether `r` was pressed the hook says
yes.  For that `knEnableReloading` hooks `QiInput::wasKeyPressed`.

The hook keeps one pointer to the original.  To hook the function twice would make the hook its own
original, and a press would never be answered; the test of the pointer prevents that.
`reload_delivered` says what the game is told, in any order of requests, presses, and attempts to
set the hook that may fail.
-/

namespace KnShim
namespace GameCtl

open Lib

/-! ## The functions -/

/-- Where a call of `QiInput::wasKeyPressed` gets to, or one of a stub. -/
inductive Entry where
  | original
  | hook
  deriving DecidableEq

structure ReloadState where
  wasKeyPressed : Entry
  gWasKeyPressedFunc : Option Entry
  gWantsReload : Bool

/-- `KNHookFunction` on `QiInput::wasKeyPressed`, where it returns: without a hooker it fails
(`hookerHookFunction_success`), with one the stub leads where the function led.  Left out are the
calls that fault: a hooker whose mapping failed, a stub area that is full, a game without the
function. -/
def hookWasKeyPressed (hooker : Bool) (s : ReloadState) : ReloadState :=
  if hooker then { s with wasKeyPressed := .hook, gWasKeyPressedFunc := some s.wasKeyPressed }
  else s

/-- `knEnableReloading`. -/
def knEnableReloading (hooker : Bool) (s : ReloadState) : ReloadState :=
  if s.gWasKeyPressedFunc = none then hookWasKeyPressed hooker s else s

/-- `knReload`. -/
def knReload (s : ReloadState) : ReloadState := { s with gWantsReload := true }

/-- `'r'`. -/
def keyR : BitVec 32 := 0x72

/-- What a call returns, and whether the game's own function was called for it. -/
structure KeyAnswer where
  pressed : Bool
  asked : Bool
  deriving DecidableEq

/-- A call with at most `fuel` functions on the way; `real` is what the game's own one returns. -/
def wasKeyPressed (ch : BitVec 32) (real : Bool) :
    Nat → Entry → ReloadState → Fallible (ReloadState × KeyAnswer)
  | 0, _, _ => .error .nonTermination
  | _ + 1, .original, s => .ok (s, ⟨real, true⟩)
  -- `KNReload_WasKeyPressedHook`
  | fuel + 1, .hook, s =>
      if s.gWantsReload = true ∧ ch = keyR then
        .ok ({ s with gWantsReload := false }, ⟨true, false⟩)
      else
        match s.gWasKeyPressedFunc with
        | none => .error .nullDeref
        | some entry => wasKeyPressed ch real fuel entry s

/-- What a script or the game does. -/
inductive ReloadCall where
  | enable (hooker : Bool)
  | reload
  | press (ch : BitVec 32) (real : Bool)
  deriving DecidableEq

def reloadStep (fuel : Nat) (s : ReloadState) :
    ReloadCall → Fallible (ReloadState × Option KeyAnswer)
  | .enable hooker => .ok (knEnableReloading hooker s, none)
  | .reload => .ok (knReload s, none)
  | .press ch real => do
      let (s, answer) ← wasKeyPressed ch real fuel s.wasKeyPressed s
      return (s, some answer)

def reloadMachine (fuel : Nat) : Machine ReloadState ReloadCall (Option KeyAnswer) where
  init := ⟨.original, none, false⟩
  step := reloadStep fuel

/-! ## What the game is to be told -/

/-- The hook was set. -/
def Enabled (calls : List ReloadCall) : Prop := .enable true ∈ calls

/-- A reload was asked for, and no press of `r` has come to the hook since. -/
def Pending (calls : List ReloadCall) : Prop :=
  ∃ front back, calls = front ++ .reload :: back ∧
    ∀ mid real rest, back = mid ++ .press keyR real :: rest → ¬ Enabled (front ++ .reload :: mid)

/-- The press of a key is to be simulated. -/
def Due (calls : List ReloadCall) (ch : BitVec 32) : Prop :=
  Enabled calls ∧ ch = keyR ∧ Pending calls

variable {calls : List ReloadCall} {c : ReloadCall}

theorem enabled_concat : Enabled (calls ++ [c]) ↔ Enabled calls ∨ c = .enable true := by
  rw [Enabled, Enabled, List.mem_append, List.mem_singleton, eq_comm (a := c)]

/-- A request is pending. -/
theorem pending_reload (calls : List ReloadCall) : Pending (calls ++ [.reload]) := by
  refine ⟨calls, [], rfl, fun mid real rest hback => ?_⟩
  exact absurd hback (by simp)

/-- A press of `r` that comes to the hook answers all requests. -/
theorem not_pending_press (henabled : Enabled calls) (real : Bool) :
    ¬ Pending (calls ++ [.press keyR real]) := by
  rintro ⟨front, back, hcalls, hback⟩
  rcases Machine.concat_eq_append_cons hcalls with ⟨_, _, hreload⟩ | ⟨mid, rfl, rfl⟩
  · cases hreload
  · exact hback mid real [] rfl henabled

/-- A request that is pending was pending before, unless it is new. -/
theorem Pending.of_concat (hpending : Pending (calls ++ [c])) (hreload : c ≠ .reload) :
    Pending calls := by
  rcases hpending with ⟨front, back, hcalls, hback⟩
  rcases Machine.concat_eq_append_cons hcalls with ⟨_, _, rfl⟩ | ⟨mid, rfl, rfl⟩
  · exact absurd rfl hreload
  · refine ⟨front, mid, rfl, fun mid' real rest hmid => hback mid' real (rest ++ [c]) ?_⟩
    rw [hmid]
    simp

/-- A request stays pending until a press of `r` comes to the hook. -/
theorem Pending.concat (hpending : Pending calls)
    (hpress : ∀ real, c = .press keyR real → ¬ Enabled calls) : Pending (calls ++ [c]) := by
  rcases hpending with ⟨front, back, rfl, hback⟩
  refine ⟨front, back ++ [c], by simp, fun mid real rest hmid => ?_⟩
  -- the press is the new call, or an earlier one
  rcases Machine.concat_eq_append_cons hmid with ⟨_, rfl, hc⟩ | ⟨rest', _, hback'⟩
  · exact hpress real hc.symm
  · exact hback mid real rest' hback'

/-! ## The invariant -/

/-- What the state remembers of the calls so far. -/
structure Follows (calls : List ReloadCall) (s : ReloadState) : Prop where
  enabled : Enabled calls → s.wasKeyPressed = .hook ∧ s.gWasKeyPressedFunc = some .original
  disabled : ¬ Enabled calls → s.wasKeyPressed = .original ∧ s.gWasKeyPressedFunc = none
  wants : s.gWantsReload = true ↔ Pending calls

variable {s : ReloadState}

theorem Follows.init (fuel : Nat) : Follows [] (reloadMachine fuel).init where
  enabled := by
    intro h
    cases h
  disabled := fun _ => ⟨rfl, rfl⟩
  wants := by
    refine iff_of_false Bool.false_ne_true ?_
    rintro ⟨front, back, hnil, _⟩
    exact absurd hnil (by simp)

/-- The hook is set once: while it is, the pointer is not `NULL`. -/
theorem Follows.enable (h : Follows calls s) (hooker : Bool) :
    Follows (calls ++ [.enable hooker]) (knEnableReloading hooker s) := by
  have hpending : Pending (calls ++ [.enable hooker]) ↔ Pending calls :=
    ⟨fun hp => hp.of_concat (by simp), fun hp => hp.concat (by simp)⟩
  by_cases hset : Enabled calls
  · rcases h.enabled hset with ⟨hentry, hfunc⟩
    have hsame : knEnableReloading hooker s = s := by
      rw [knEnableReloading, if_neg (by rw [hfunc]; simp)]
    rw [hsame]
    exact ⟨fun _ => ⟨hentry, hfunc⟩, fun hnot => absurd (enabled_concat.mpr (Or.inl hset)) hnot,
      h.wants.trans hpending.symm⟩
  · rcases h.disabled hset with ⟨hentry, hfunc⟩
    have henabled : Enabled (calls ++ [.enable hooker]) ↔ hooker = true := by
      rw [enabled_concat]
      simp [hset]
    rw [knEnableReloading, if_pos hfunc, hookWasKeyPressed]
    cases hooker with
    | false =>
        exact ⟨fun hon => absurd (henabled.mp hon) Bool.false_ne_true, fun _ => ⟨hentry, hfunc⟩,
          h.wants.trans hpending.symm⟩
    | true =>
        -- the stub leads to the original, which the function led to
        exact ⟨fun _ => ⟨rfl, congrArg some hentry⟩, fun hnot => absurd (henabled.mpr rfl) hnot,
          h.wants.trans hpending.symm⟩

theorem Follows.reload (h : Follows calls s) : Follows (calls ++ [.reload]) (knReload s) where
  enabled := fun hon => h.enabled ((enabled_concat.mp hon).resolve_right (by simp))
  disabled := fun hnot => h.disabled (fun hon => hnot (enabled_concat.mpr (Or.inl hon)))
  wants := iff_of_true rfl (pending_reload calls)

theorem enabled_press {ch : BitVec 32} {real : Bool} :
    Enabled (calls ++ [.press ch real]) ↔ Enabled calls := by
  rw [enabled_concat]
  simp

/-- A press that is not simulated goes to the game and changes nothing. -/
theorem Follows.asked (h : Follows calls s) {ch : BitVec 32} (hdue : ¬ Due calls ch) (fuel : Nat)
    (real : Bool) :
    wasKeyPressed ch real (fuel + 2) s.wasKeyPressed s = .ok (s, ⟨real, true⟩) ∧
      Follows (calls ++ [.press ch real]) s := by
  refine ⟨?_, ?_, ?_, ?_⟩
  · by_cases hset : Enabled calls
    · rcases h.enabled hset with ⟨hentry, hfunc⟩
      have hnot : ¬ (s.gWantsReload = true ∧ ch = keyR) := by
        rintro ⟨hwants, hch⟩
        exact hdue ⟨hset, hch, h.wants.mp hwants⟩
      -- through the hook and the stub
      rw [hentry, wasKeyPressed, if_neg hnot, hfunc]
      rfl
    · rw [(h.disabled hset).1]
      rfl
  · exact fun hon => h.enabled (enabled_press.mp hon)
  · exact fun hnot => h.disabled (fun hon => hnot (enabled_press.mpr hon))
  · rw [h.wants]
    constructor
    · intro hpending
      refine hpending.concat (fun real' hpress henabled => hdue ⟨henabled, ?_, hpending⟩)
      exact (ReloadCall.press.inj hpress).1
    · exact fun hpending => hpending.of_concat (by simp)

/-- A press that is due is simulated, and the request is gone. -/
theorem Follows.simulated (h : Follows calls s) {ch : BitVec 32} (hdue : Due calls ch) (fuel : Nat)
    (real : Bool) :
    wasKeyPressed ch real (fuel + 2) s.wasKeyPressed s =
        .ok ({ s with gWantsReload := false }, ⟨true, false⟩) ∧
      Follows (calls ++ [.press ch real]) { s with gWantsReload := false } := by
  rcases hdue with ⟨hset, rfl, hpending⟩
  refine ⟨?_, fun _ => h.enabled hset, fun hnot => ?_, ?_⟩
  · have hentry := (h.enabled hset).1
    rcases s with ⟨entry, func, wants⟩
    subst hentry
    rw [wasKeyPressed, if_pos ⟨h.wants.mpr hpending, rfl⟩]
  · exact absurd (enabled_press.mpr hset) hnot
  · exact iff_of_false Bool.false_ne_true (not_pending_press hset real)

/-! ## Runs -/

/-- In a history of calls and answers, every press is simulated when it is due, and otherwise
answered by the game itself. -/
def Answered (tr : List (ReloadCall × Option KeyAnswer)) : Prop :=
  ∀ front ch real answer back, tr = front ++ (.press ch real, answer) :: back →
    (Due (front.map Prod.fst) ch → answer = some ⟨true, false⟩) ∧
      (¬ Due (front.map Prod.fst) ch → answer = some ⟨real, true⟩)

def isSimulated (t : ReloadCall × Option KeyAnswer) : Bool := t.2 = some ⟨true, false⟩

def isRequest (t : ReloadCall × Option KeyAnswer) : Bool := t.1 = .reload

/-- What holds after a history. -/
structure Told (tr : List (ReloadCall × Option KeyAnswer)) (s : ReloadState) : Prop where
  follows : Follows (tr.map Prod.fst) s
  answered : Answered tr
  counted : tr.countP isSimulated + s.gWantsReload.toNat ≤ tr.countP isRequest

theorem Answered.concat {tr : List (ReloadCall × Option KeyAnswer)} (h : Answered tr)
    {answer : Option KeyAnswer}
    (hlast : ∀ ch real, c = .press ch real →
      (Due (tr.map Prod.fst) ch → answer = some ⟨true, false⟩) ∧
        (¬ Due (tr.map Prod.fst) ch → answer = some ⟨real, true⟩)) :
    Answered (tr ++ [(c, answer)]) := by
  intro front ch real answer' back htr
  rcases Machine.concat_eq_append_cons htr with ⟨_, rfl, hc⟩ | ⟨mid, _, htr'⟩
  · cases hc
    exact hlast ch real rfl
  · exact h front ch real answer' mid htr'

/-- Every call is answered as it is to be. -/
theorem reloadStep_told (fuel : Nat) (tr : List (ReloadCall × Option KeyAnswer)) (s : ReloadState)
    (c : ReloadCall) (h : Told tr s) :
    ∃ s' answer, reloadStep (fuel + 2) s c = .ok (s', answer) ∧ Told (tr ++ [(c, answer)]) s' := by
  have hmap : ∀ answer, (tr ++ [(c, answer)]).map Prod.fst = tr.map Prod.fst ++ [c] := by
    intro answer
    simp
  cases c with
  | enable hooker =>
      refine ⟨_, none, rfl, ?_, h.answered.concat (fun ch real hc => by cases hc), ?_⟩
      · rw [hmap]
        exact h.follows.enable hooker
      · have hwants : (knEnableReloading hooker s).gWantsReload = s.gWantsReload := by
          rw [knEnableReloading, hookWasKeyPressed]
          split_ifs <;> rfl
        rw [hwants]
        simpa [isSimulated, isRequest] using h.counted
  | reload =>
      refine ⟨_, none, rfl, ?_, h.answered.concat (fun ch real hc => by cases hc), ?_⟩
      · rw [hmap]
        exact h.follows.reload
      · have hleft : (tr ++ [(ReloadCall.reload, none)]).countP isSimulated =
            tr.countP isSimulated := by
          simp [isSimulated]
        have hright : (tr ++ [(ReloadCall.reload, none)]).countP isRequest =
            tr.countP isRequest + 1 := by
          simp [isRequest]
        rw [hleft, hright]
        exact Nat.add_le_add (le_trans (Nat.le_add_right _ _) h.counted) (Nat.le_refl 1)
  | press ch real =>
      by_cases hdue : Due (tr.map Prod.fst) ch
      · rcases h.follows.simulated hdue fuel real with ⟨hrun, hfollows⟩
        refine ⟨{ s with gWantsReload := false }, some ⟨true, false⟩, ?_, ?_,
          h.answered.concat ?_, ?_⟩
        · rw [reloadStep, hrun]
          rfl
        · rw [hmap]
          exact hfollows
        · intro ch' real' hc
          cases hc
          exact ⟨fun _ => rfl, fun hnot => absurd hdue hnot⟩
        · -- the press uses up the request
          have hcounted := h.counted
          rw [h.follows.wants.mpr hdue.2.2] at hcounted
          simpa [isSimulated, isRequest] using hcounted
      · rcases h.follows.asked hdue fuel real with ⟨hrun, hfollows⟩
        refine ⟨s, some ⟨real, true⟩, ?_, ?_, h.answered.concat ?_, ?_⟩
        · rw [reloadStep, hrun]
          rfl
        · rw [hmap]
          exact hfollows
        · intro ch' real' hc
          cases hc
          exact ⟨fun hon => absurd hon hdue, fun _ => rfl⟩
        · simpa [isSimulated, isRequest] using h.counted

/-- Whatever the order of requests, presses and attempts to set the hook, and as long as
`KNHookFunction` returns: every call returns, a press of `r` is simulated exactly when the hook is
set and a request is pending, every other press is answered by the game, and there are no more
simulated presses than requests. -/
theorem reload_delivered (fuel : Nat) (calls : List ReloadCall) :
    ∃ s answers, (reloadMachine (fuel + 2)).run calls = .ok (s, answers) ∧
      answers.length = calls.length ∧ Answered (calls.zip answers) ∧
      (calls.zip answers).countP isSimulated ≤ (calls.zip answers).countP isRequest := by
  have hinit : Told [] (reloadMachine (fuel + 2)).init := by
    refine ⟨Follows.init _, ?_, Nat.zero_le _⟩
    intro front ch real answer back hnil
    exact absurd hnil (by simp)
  rcases Machine.runFrom_history (M := reloadMachine (fuel + 2)) (I := Told) 
      (G := fun _ _ => True) (P := fun _ => True)
      (fun tr s c h _ _ => reloadStep_told fuel tr s c h) calls [] _ hinit
      (Machine.along_of_forall (fun _ _ => trivial) _ _) (fun _ _ => trivial) with
    ⟨s, answers, hrun, h⟩
  rw [List.nil_append] at h
  exact ⟨s, answers, hrun, Machine.runFrom_length calls hrun, h.answered,
    le_trans (Nat.le_add_right _ _) h.counted⟩

/-- Asked for twice and pressed twice: the second press is a real one. -/
example : ((reloadMachine 2).run [.reload, .enable false, .press keyR false, .enable true, .reload,
    .press 0x71 true, .press keyR false, .press keyR false]).toOption.map Prod.snd =
    some [none, none, some ⟨false, true⟩, none, none, some ⟨true, true⟩, some ⟨true, false⟩,
      some ⟨false, true⟩] := by decide

end GameCtl
end KnShim
