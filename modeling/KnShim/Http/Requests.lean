import KnShim.Lib.Machine
import KnShim.Lua.Value
import KnShim.NxArchive.Grammar

/-!
# Requests — the HTTP requests of `http.c`, and when they are released

A script holds request objects.  Each has a pointer `context` to a block of the HTTP library, and
`knHttpRelease` gives the block back and sets the pointer to `NULL`.  The model keeps the blocks, so
that using a block that was released is a fault, as is using `NULL`.

Every function but one looks at `context` before it uses it.  `knHttpRelease` does not, and
`http_release` dereferences what it is given: `http_safe_iff` says that a run is safe exactly when no
object is released twice.
-/

namespace KnShim
namespace Http

open Lib Lua NxArchive

/-! ## The library -/

/-- `HTTP_STATUS_PENDING`. -/
def statusPending : Nat := 0

/-- `HTTP_STATUS_COMPLETED`. -/
def statusCompleted : Nat := 1

/-- `HTTP_STATUS_FAILED`. -/
def statusFailed : Nat := 2

/-- `http_t`; `response` is what `response_data` and `response_size` describe. -/
structure HttpT (target : Target) where
  status : Nat
  statusCode : BitVec 32
  reasonPhrase : Option CString
  contentType : Option CString
  response : Bytes
  fits : response.length ≤ target.ptrdiffMax

/-- A request that is handed to the library. -/
inductive Sent where
  | get (url : CString)
  | post (url : CString) (body : Bytes)

/-- What `http_process` leaves in the `http_t`, and what it returns. -/
structure Processed (target : Target) where
  http : HttpT target
  status : Nat

/-- The request objects, with the `context` of each (`none` is `NULL`), and the blocks of the
library (`none` is one that was released). -/
structure State (target : Target) where
  contexts : List (Option Nat)
  blocks : List (Option (HttpT target))

variable {target : Target}

/-- The block behind a pointer that is dereferenced, and where it is. -/
def State.deref (s : State target) (context : Option Nat) : Fallible (Nat × HttpT target) :=
  match context with
  | none => .error .nullDeref
  | some b => do
      match ← readAt s.blocks b with
      | none => .error .outOfBounds
      | some http => return (b, http)

/-- `http_process`. -/
def httpProcess (s : State target) (context : Option Nat) (processed : Processed target) :
    Fallible (State target) := do
  let (b, _) ← s.deref context
  return { s with blocks := s.blocks.set b (some processed.http) }

/-- `http_release`. -/
def httpRelease (s : State target) (context : Option Nat) : Fallible (State target) := do
  let (b, _) ← s.deref context
  return { s with blocks := s.blocks.set b none }

/-! ## Values on the Lua stack -/

/-- A Lua value: a request object, by its number, or any other value. -/
inductive Item where
  | request (ctx : Nat)
  | value (v : Value)

/-- `lua_touserdata`.  A request object that was never returned does not exist. -/
def touserdata (s : State target) : Item → Option Nat
  | .request ctx => if ctx < s.contexts.length then some ctx else none
  | .value _ => none

def Item.toLString (numerals : Numerals) : Item → Option Bytes
  | .request _ => none
  | .value v => v.toLString numerals

def Item.toCString (numerals : Numerals) : Item → Option CString
  | .request _ => none
  | .value v => v.toCString numerals

/-- `lua_pushstring`. -/
def pushString (s : String) : Item := .value (.string s.toUTF8.data.toList)

/-- `lua_pushinteger`. -/
def pushInteger {w : Nat} (n : BitVec w) : Item := .value (.ofInteger n)

def pushNil : Item := .value .nil

/-- `KN_HTTP_PENDING`. -/
def updatePending : Item := pushInteger 1#32

/-- `KN_HTTP_DONE`. -/
def updateDone : Item := pushInteger 2#32

/-- `KN_HTTP_ERROR`. -/
def updateError : Item := pushInteger 3#32

/-! ## The functions -/

/-- `knHttpRequest`; `connect` is what `http_get` and `http_post` make of a request. -/
def knHttpRequest (numerals : Numerals) (s : State target) (connect : Sent → Option (HttpT target)) :
    List Item → State target × List Item
  | [] => (s, [pushNil])
  | url :: args =>
      match url.toCString numerals with
      | none => (s, [pushNil])
      | some url =>
          let request :=
            match args with
            | [] => connect (.get url)
            | body :: _ => connect (.post url ((body.toLString numerals).getD []))
          match request with
          | none => (s, [pushNil])
          | some http =>
              (⟨s.contexts ++ [some s.blocks.length], s.blocks ++ [some http]⟩,
                [.request s.contexts.length])

/-- What the functions do with their object: `use` its context, or push `gone` when there is no
object or its context is `NULL`. -/
def onContext (s : State target) (arg : Item) (gone : Item)
    (use : Option Nat → Fallible (State target × List Item)) :
    Fallible (State target × List Item) :=
  match touserdata s arg with
  | none => .ok (s, [gone])
  | some ctx => do
      let context ← readAt s.contexts ctx
      if context = none then return (s, [gone])
      else use context

/-- `knHttpUpdate`. -/
def knHttpUpdate (s : State target) (processed : Processed target) :
    List Item → Fallible (State target × List Item)
  | [] => .ok (s, [pushNil])
  | arg :: _ => onContext s arg pushNil (fun context => do
      let s ← httpProcess s context processed
      if processed.status = statusPending then return (s, [updatePending])
      else if processed.status = statusFailed then return (s, [updateError])
      else if processed.status = statusCompleted then return (s, [updateDone])
      else return (s, [updateError]))

/-- A function that reads the `http_t` of its object. -/
def inspect (s : State target) (gone : Item) (read : HttpT target → Item) :
    List Item → Fallible (State target × List Item)
  | [] => .ok (s, [pushNil])
  | arg :: _ => onContext s arg gone (fun context => do
      let (_, http) ← s.deref context
      return (s, [read http]))

/-- `knHttpData`. -/
def knHttpData (s : State target) : List Item → Fallible (State target × List Item) :=
  inspect s pushNil (fun http =>
    if http.status = statusCompleted then .value (.string http.response) else pushNil)

/-- `knHttpDataSize`. -/
def knHttpDataSize (s : State target) : List Item → Fallible (State target × List Item) :=
  inspect s (pushInteger 0#32) (fun http =>
    pushInteger (BitVec.ofNat target.wordBits http.response.length))

/-- `knHttpContentType`. -/
def knHttpContentType (s : State target) : List Item → Fallible (State target × List Item) :=
  inspect s pushNil (fun http =>
    match http.contentType with
    | some text => if text.length ≠ 0 then .value (.string text.bytes) else pushNil
    | none => pushNil)

/-- `knHttpError`. -/
def knHttpError (s : State target) : List Item → Fallible (State target × List Item) :=
  inspect s pushNil (fun http =>
    match http.reasonPhrase with
    | some text => .value (.string text.bytes)
    | none => pushNil)

/-- `knHttpErrorCode`. -/
def knHttpErrorCode (s : State target) : List Item → Fallible (State target × List Item) :=
  inspect s pushNil (fun http => pushInteger http.statusCode)

/-- `knHttpRelease`; it does not look at `ctx->context`. -/
def knHttpRelease (s : State target) : List Item → Fallible (State target × List Item)
  | [] => .ok (s, [])
  | arg :: _ =>
      match touserdata s arg with
      | none => .ok (s, [])
      | some ctx => do
          let context ← readAt s.contexts ctx
          let s ← httpRelease s context
          return ({ s with contexts := s.contexts.set ctx none }, [])

/-- `knHttpExtractNxArchive`. -/
def knHttpExtractNxArchive (numerals : Numerals) (stack : Fin pathMax → UInt8) (s : State target) :
    List Item → Fallible (State target × List Item)
  | arg :: dest :: _ => onContext s arg (pushString "http context is null") (fun context => do
      match dest.toCString numerals with
      | none => return (s, [pushString "dest is null"])
      | some dest => do
          let (_, http) ← s.deref context
          let (_, err) ← extractArchiveFromBuffer target stack dest http.response
          match err with
          | some err => return (s, [pushString err])
          | none => return (s, [.value (.boolean false)]))
  | _ => .ok (s, [pushString "not enough params"])

/-! ## Runs -/

/-- A call from a script, with what the library makes of it. -/
inductive HttpCall (target : Target) where
  | request (connect : Sent → Option (HttpT target)) (args : List Item)
  | update (processed : Processed target) (args : List Item)
  | data (args : List Item)
  | dataSize (args : List Item)
  | contentType (args : List Item)
  | error (args : List Item)
  | errorCode (args : List Item)
  | release (args : List Item)
  | extract (stack : Fin pathMax → UInt8) (args : List Item)

def httpCall (numerals : Numerals) (s : State target) :
    HttpCall target → Fallible (State target × List Item)
  | .request connect args => .ok (knHttpRequest numerals s connect args)
  | .update processed args => knHttpUpdate s processed args
  | .data args => knHttpData s args
  | .dataSize args => knHttpDataSize s args
  | .contentType args => knHttpContentType s args
  | .error args => knHttpError s args
  | .errorCode args => knHttpErrorCode s args
  | .release args => knHttpRelease s args
  | .extract stack args => knHttpExtractNxArchive numerals stack s args

/-- A call with the states around it, and what it pushed. -/
structure Done (target : Target) where
  before : State target
  call : HttpCall target
  after : State target
  pushed : List Item

def httpMachine (numerals : Numerals) (target : Target) :
    Machine (State target) (HttpCall target) (Done target) where
  init := ⟨[], []⟩
  step := fun s c => do
    let (s', pushed) ← httpCall numerals s c
    return (s', ⟨s, c, s', pushed⟩)

/-! ## What is wanted -/

/-- The arguments of a call on a request object. -/
def HttpCall.args : HttpCall target → List Item
  | .request _ _ => []
  | .update _ args => args
  | .data args => args
  | .dataSize args => args
  | .contentType args => args
  | .error args => args
  | .errorCode args => args
  | .release args => args
  | .extract _ args => args

/-- The object that a call is about. -/
def HttpCall.object (c : HttpCall target) : Option Nat :=
  match c.args with
  | .request ctx :: _ => some ctx
  | _ => none

/-- Nothing, nil, 0, or an error text. -/
def Harmless (pushed : List Item) : Prop :=
  pushed = [] ∨ pushed = [pushNil] ∨ pushed = [pushInteger 0#32] ∨
    pushed = [pushString "http context is null"] ∨ pushed = [pushString "not enough params"]

/-- A call on an object that has been released has no effect. -/
def Done.Right (o : Done target) : Prop :=
  ∀ ctx, o.call.object = some ctx → o.before.contexts[ctx]? = some none →
    o.after = o.before ∧ Harmless o.pushed

/-- The call releases an object that has been released. -/
def HttpCall.ReleasesTwice (s : State target) : HttpCall target → Prop
  | .release (.request ctx :: _) => s.contexts[ctx]? = some none
  | _ => False

/-! ## Ownership -/

/-- Every context is `NULL` or a block that is there, and no two objects have the same one. -/
structure Owned (s : State target) : Prop where
  live : ∀ ctx b : Nat, s.contexts[ctx]? = some (some b) →
    ∃ http : HttpT target, s.blocks[b]? = some (some http)
  apart : ∀ ctx ctx' b : Nat, s.contexts[ctx]? = some (some b) → s.contexts[ctx']? = some (some b) →
    ctx = ctx'

variable {s : State target} {numerals : Numerals}

theorem deref_of_block {b : Nat} {http : HttpT target} (h : s.blocks[b]? = some (some http)) :
    s.deref (some b) = .ok (b, http) := by
  simp [State.deref, readAt_eq_ok.mpr h]

/-- A block that is there stays there when some block is written to. -/
theorem getElem?_set_some {α : Type} {xs : List (Option α)} {b b' : Nat} {a a' : α}
    (h : xs[b']? = some (some a')) : ∃ a'', (xs.set b (some a))[b']? = some (some a'') := by
  by_cases hb : b = b'
  · subst hb
    exact ⟨a, List.getElem?_set_self (List.getElem?_eq_some_iff.mp h).1⟩
  · exact ⟨a', (List.getElem?_set_ne hb).trans h⟩

theorem Owned.processed (h : Owned s) (b : Nat) (http : HttpT target) :
    Owned { s with blocks := s.blocks.set b (some http) } where
  live := by
    intro ctx b' hctx
    rcases h.live ctx b' hctx with ⟨http', hblock⟩
    exact getElem?_set_some hblock
  apart := h.apart

/-- Releasing an object takes its block away from no other one. -/
theorem Owned.released (h : Owned s) {ctx b : Nat} (hctx : s.contexts[ctx]? = some (some b)) :
    Owned ⟨s.contexts.set ctx none, s.blocks.set b none⟩ where
  live := by
    intro ctx' b' hctx'
    have hne : ctx ≠ ctx' := by
      rintro rfl
      rw [List.getElem?_set_self (List.getElem?_eq_some_iff.mp hctx).1] at hctx'
      cases hctx'
    rw [List.getElem?_set_ne hne] at hctx'
    have hb : b ≠ b' := by
      rintro rfl
      exact hne (h.apart ctx ctx' b hctx hctx')
    rcases h.live ctx' b' hctx' with ⟨http, hblock⟩
    exact ⟨http, (List.getElem?_set_ne hb).trans hblock⟩
  apart := by
    intro ctx₁ ctx₂ b' h₁ h₂
    -- an entry that is not `NULL` is one of the old ones
    have hold : ∀ c : Nat, (s.contexts.set ctx none)[c]? = some (some b') →
        s.contexts[c]? = some (some b') := by
      intro c hc
      by_cases hcc : ctx = c
      · subst hcc
        rw [List.getElem?_set_self (List.getElem?_eq_some_iff.mp hctx).1] at hc
        cases hc
      · rwa [List.getElem?_set_ne hcc] at hc
    exact h.apart ctx₁ ctx₂ b' (hold ctx₁ h₁) (hold ctx₂ h₂)

/-- A new object gets a new block. -/
theorem Owned.opened (h : Owned s) (http : HttpT target) :
    Owned ⟨s.contexts ++ [some s.blocks.length], s.blocks ++ [some http]⟩ := by
  -- the contexts are the old ones, which point below the new block, and the new one
  have hcases : ∀ ctx b, (s.contexts ++ [some s.blocks.length])[ctx]? = some (some b) →
      s.contexts[ctx]? = some (some b) ∧ b < s.blocks.length ∨
        ctx = s.contexts.length ∧ b = s.blocks.length := by
    intro ctx b hctx
    by_cases hlt : ctx < s.contexts.length
    · rw [List.getElem?_append_left hlt] at hctx
      rcases h.live ctx b hctx with ⟨http', hblock⟩
      exact Or.inl ⟨hctx, (List.getElem?_eq_some_iff.mp hblock).1⟩
    · rw [List.getElem?_append_right (Nat.le_of_not_lt hlt)] at hctx
      have hzero : ctx - s.contexts.length = 0 := by
        have hlen := (List.getElem?_eq_some_iff.mp hctx).1
        rw [List.length_singleton] at hlen
        exact Nat.lt_one_iff.mp hlen
      rw [hzero] at hctx
      simp only [List.getElem?_cons_zero, Option.some.injEq] at hctx
      exact Or.inr ⟨Nat.le_antisymm (Nat.sub_eq_zero_iff_le.mp hzero) (Nat.le_of_not_lt hlt),
        hctx.symm⟩
  constructor
  · intro ctx b hctx
    rcases hcases ctx b hctx with ⟨hold, hlt⟩ | ⟨_, rfl⟩
    · rcases h.live ctx b hold with ⟨http', hblock⟩
      exact ⟨http', (List.getElem?_append_left hlt).trans hblock⟩
    · exact ⟨http, by simp⟩
  · intro ctx ctx' b hctx hctx'
    rcases hcases ctx b hctx with ⟨hold, hlt⟩ | ⟨rfl, hb⟩
    · rcases hcases ctx' b hctx' with ⟨hold', _⟩ | ⟨_, hb'⟩
      · exact h.apart ctx ctx' b hold hold'
      · exact absurd hb' (Nat.ne_of_lt hlt)
    · rcases hcases ctx' b hctx' with ⟨_, hlt'⟩ | ⟨rfl, _⟩
      · exact absurd hb (Nat.ne_of_lt hlt')
      · rfl

/-! ## The calls -/

/-- The result of a call about `arg`: it leaves the objects in order, and on an object that has been
released it pushes `gone` and does nothing else. -/
structure Settled (s : State target) (arg : Item) (gone : List Item)
    (result : Fallible (State target × List Item)) : Prop where
  returns : ∃ r, result = .ok r ∧ Owned r.1
  idle : ∀ ctx, arg = .request ctx → s.contexts[ctx]? = some none → result = .ok (s, gone)

theorem touserdata_request {ctx : Nat} {context : Option Nat} (h : s.contexts[ctx]? = some context) :
    touserdata s (.request ctx) = some ctx := by
  rw [touserdata, if_pos (List.getElem?_eq_some_iff.mp h).1]

/-- An item is an object with its context, or none. -/
theorem touserdata_cases (s : State target) (arg : Item) :
    (∃ ctx context, arg = .request ctx ∧ touserdata s arg = some ctx ∧
      s.contexts[ctx]? = some context) ∨
    touserdata s arg = none ∧ ∀ ctx, arg = .request ctx → s.contexts[ctx]? = none := by
  cases arg with
  | value v => exact Or.inr ⟨rfl, fun ctx h => by cases h⟩
  | request ctx =>
      by_cases hlt : ctx < s.contexts.length
      · have hget := List.getElem?_eq_getElem hlt
        exact Or.inl ⟨ctx, _, rfl, touserdata_request hget, hget⟩
      · refine Or.inr ⟨if_neg hlt, fun ctx' h => ?_⟩
        cases h
        exact List.getElem?_eq_none (Nat.le_of_not_lt hlt)

theorem onContext_settled (h : Owned s) (arg gone : Item)
    {use : Option Nat → Fallible (State target × List Item)}
    (huse : ∀ b http, s.blocks[b]? = some (some http) → ∃ r, use (some b) = .ok r ∧ Owned r.1) :
    Settled s arg [gone] (onContext s arg gone use) := by
  rcases touserdata_cases s arg with ⟨ctx, context, rfl, hdata, hctx⟩ | ⟨hdata, hnone⟩
  · have hrun : onContext s (.request ctx) gone use =
        if context = none then .ok (s, [gone]) else use context := by
      simp only [onContext, hdata, readAt_eq_ok.mpr hctx, Fallible.ok_bind]
      rfl
    rw [hrun]
    cases context with
    | none => exact ⟨⟨_, rfl, h⟩, fun _ _ _ => rfl⟩
    | some b =>
        -- the context points to a block that is there
        rcases h.live ctx b hctx with ⟨http, hblock⟩
        rcases huse b http hblock with ⟨r, hr, howned⟩
        refine ⟨⟨r, hr, howned⟩, ?_⟩
        intro ctx' heq hgone
        cases heq
        rw [hctx] at hgone
        cases hgone
  · have hrun : onContext s arg gone use = .ok (s, [gone]) := by
      simp only [onContext, hdata]
    rw [hrun]
    exact ⟨⟨_, rfl, h⟩, fun _ _ _ => rfl⟩

theorem knHttpUpdate_settled (h : Owned s) (processed : Processed target) (arg : Item)
    (args : List Item) : Settled s arg [pushNil] (knHttpUpdate s processed (arg :: args)) := by
  refine onContext_settled h arg pushNil (fun b http hblock => ?_)
  simp only [httpProcess, deref_of_block hblock, Fallible.ok_bind]
  have howned := h.processed b processed.http
  split_ifs <;> exact ⟨_, rfl, howned⟩

theorem inspect_settled (h : Owned s) (gone : Item) (read : HttpT target → Item) (arg : Item)
    (args : List Item) : Settled s arg [gone] (inspect s gone read (arg :: args)) := by
  refine onContext_settled h arg gone (fun b http hblock => ?_)
  rw [deref_of_block hblock]
  exact ⟨_, rfl, h⟩

theorem knHttpExtractNxArchive_settled (h : Owned s) (stack : Fin pathMax → UInt8)
    (arg dest : Item) (args : List Item) :
    Settled s arg [pushString "http context is null"]
      (knHttpExtractNxArchive numerals stack s (arg :: dest :: args)) := by
  refine onContext_settled h arg _ (fun b http hblock => ?_)
  cases hdest : dest.toCString numerals with
  | none => exact ⟨_, rfl, h⟩
  | some location =>
      rcases extract_total target stack location http.fits with ⟨effects, error, hrun⟩
      simp only [deref_of_block hblock, Fallible.ok_bind, hrun]
      cases error <;> exact ⟨_, rfl, h⟩

/-- `knHttpRelease` of an object that has not been released. -/
theorem knHttpRelease_settled (h : Owned s) (arg : Item) (args : List Item)
    (hfirst : ∀ ctx, arg = .request ctx → s.contexts[ctx]? ≠ some none) :
    Settled s arg [] (knHttpRelease s (arg :: args)) := by
  refine ⟨?_, fun ctx harg hgone => absurd hgone (hfirst ctx harg)⟩
  rcases touserdata_cases s arg with ⟨ctx, context, rfl, hdata, hctx⟩ | ⟨hdata, _⟩
  · cases context with
    | none => exact absurd hctx (hfirst ctx rfl)
    | some b =>
        rcases h.live ctx b hctx with ⟨http, hblock⟩
        refine ⟨(⟨s.contexts.set ctx none, s.blocks.set b none⟩, []), ?_, h.released hctx⟩
        simp [knHttpRelease, hdata, readAt_eq_ok.mpr hctx, httpRelease, deref_of_block hblock]
  · exact ⟨(s, []), by simp [knHttpRelease, hdata], h⟩

/-- `knHttpRelease` of an object that has been released dereferences `NULL`. -/
theorem knHttpRelease_twice {ctx : Nat} (hgone : s.contexts[ctx]? = some none) (args : List Item) :
    knHttpRelease s (.request ctx :: args) = .error .nullDeref := by
  simp only [knHttpRelease, touserdata_request hgone, readAt_eq_ok.mpr hgone, Fallible.ok_bind]
  rfl

/-! ## Steps -/

theorem HttpCall.object_of_args {c : HttpCall target} {arg : Item} {args : List Item} {ctx : Nat}
    (hargs : c.args = arg :: args) (h : c.object = some ctx) : arg = .request ctx := by
  cases arg with
  | request ctx' =>
      simp only [HttpCall.object, hargs, Option.some.injEq] at h
      rw [h]
  | value v =>
      simp only [HttpCall.object, hargs] at h
      cases h

/-- A call whose result is settled is a step that is right. -/
theorem step_of_settled {c : HttpCall target} {arg : Item} {args gone : List Item}
    (hargs : c.args = arg :: args) (hsettled : Settled s arg gone (httpCall numerals s c))
    (hgone : Harmless gone) :
    ∃ s' o, (httpMachine numerals target).step s c = .ok (s', o) ∧ Owned s' ∧ o.Right := by
  rcases hsettled.returns with ⟨⟨s', pushed⟩, hrun, howned⟩
  refine ⟨s', ⟨s, c, s', pushed⟩, by simp [httpMachine, hrun], howned, ?_⟩
  intro ctx hobject hnone
  have hidle := hsettled.idle ctx (HttpCall.object_of_args hargs hobject) hnone
  rw [hrun] at hidle
  cases hidle
  exact ⟨rfl, hgone⟩

/-- A call that is about no object is right when it returns. -/
theorem step_of_no_object {c : HttpCall target} {s' : State target} {pushed : List Item}
    (hargs : c.args = []) (hrun : httpCall numerals s c = .ok (s', pushed)) (howned : Owned s') :
    ∃ s' o, (httpMachine numerals target).step s c = .ok (s', o) ∧ Owned s' ∧ o.Right := by
  refine ⟨s', ⟨s, c, s', pushed⟩, by simp [httpMachine, hrun], howned, ?_⟩
  intro ctx hobject
  simp only [HttpCall.object, hargs] at hobject
  cases hobject

/-- The functions that read an `http_t` are right. -/
theorem step_of_inspect (h : Owned s) {c : HttpCall target} {gone : Item}
    {f : List Item → Fallible (State target × List Item)} {read : HttpT target → Item}
    (hf : f = inspect s gone read) (hcall : httpCall numerals s c = f c.args)
    (hgone : Harmless [gone]) :
    ∃ s' o, (httpMachine numerals target).step s c = .ok (s', o) ∧ Owned s' ∧ o.Right := by
  subst hf
  cases hargs : c.args with
  | nil =>
      rw [hargs] at hcall
      exact step_of_no_object hargs hcall h
  | cons arg args =>
      have hsettled : Settled s arg [gone] (httpCall numerals s c) := by
        rw [hcall, hargs]
        exact inspect_settled h gone read arg args
      exact step_of_settled hargs hsettled hgone

theorem knHttpRequest_owned (h : Owned s) (connect : Sent → Option (HttpT target))
    (args : List Item) : Owned (knHttpRequest numerals s connect args).1 := by
  cases args with
  | nil => exact h
  | cons url args =>
      simp only [knHttpRequest]
      cases url.toCString numerals with
      | none => exact h
      | some url =>
          simp only
          -- whatever was sent, the library opened it or not
          generalize (match args with
            | [] => connect (.get url)
            | body :: _ => connect (.post url ((body.toLString numerals).getD []))) = request
          cases request with
          | none => exact h
          | some http => exact h.opened http

/-- Every call that does not release an object for the second time is right. -/
theorem httpCall_right (s : State target) (c : HttpCall target) (h : Owned s)
    (hc : ¬ c.ReleasesTwice s) :
    ∃ s' o, (httpMachine numerals target).step s c = .ok (s', o) ∧ Owned s' ∧ o.Right := by
  have hnil : Harmless [pushNil] := Or.inr (Or.inl rfl)
  have hzero : Harmless [pushInteger 0#32] := Or.inr (Or.inr (Or.inl rfl))
  have hnull : Harmless [pushString "http context is null"] :=
    Or.inr (Or.inr (Or.inr (Or.inl rfl)))
  cases c with
  | request connect args => exact step_of_no_object rfl rfl (knHttpRequest_owned h connect args)
  | update processed args =>
      cases args with
      | nil => exact step_of_no_object rfl rfl h
      | cons arg args => exact step_of_settled rfl (knHttpUpdate_settled h processed arg args) hnil
  | data args => exact step_of_inspect h (f := knHttpData s) rfl rfl hnil
  | dataSize args => exact step_of_inspect h (f := knHttpDataSize s) rfl rfl hzero
  | contentType args => exact step_of_inspect h (f := knHttpContentType s) rfl rfl hnil
  | error args => exact step_of_inspect h (f := knHttpError s) rfl rfl hnil
  | errorCode args => exact step_of_inspect h (f := knHttpErrorCode s) rfl rfl hnil
  | release args =>
      cases args with
      | nil => exact step_of_no_object rfl rfl h
      | cons arg args =>
          refine step_of_settled rfl (knHttpRelease_settled h arg args ?_) (Or.inl rfl)
          rintro ctx rfl hgone
          exact hc hgone
  | extract stack args =>
      rcases args with _ | ⟨arg, _ | ⟨dest, args⟩⟩
      · exact step_of_no_object rfl rfl h
      · -- without a destination the object is not looked at
        have hsettled : Settled s arg [pushString "not enough params"]
            (httpCall numerals s (.extract stack [arg])) :=
          ⟨⟨_, rfl, h⟩, fun _ _ _ => rfl⟩
        exact step_of_settled rfl hsettled (Or.inr (Or.inr (Or.inr (Or.inr rfl))))
      · exact step_of_settled rfl (knHttpExtractNxArchive_settled h stack arg dest args) hnull

/-- No call uses `NULL` or a block that has been released, and none has an effect on an object that
has been released, exactly when no object is released twice. -/
theorem http_safe_iff (numerals : Numerals) (target : Target) (calls : List (HttpCall target)) :
    (∃ s done, (httpMachine numerals target).run calls = .ok (s, done) ∧ ∀ o ∈ done, o.Right) ↔
      (httpMachine numerals target).Along (fun s c => ¬ c.ReleasesTwice s)
        (httpMachine numerals target).init calls := by
  have hinit : Owned (httpMachine numerals target).init := by
    constructor
    · intro ctx b hctx
      cases hctx
    · intro ctx ctx' b hctx
      cases hctx
  refine Machine.runFrom_outputs_iff (H := fun _ _ => True) ?_ ?_ calls _ hinit ?_
  · intro s c h _ hc
    exact httpCall_right s c h hc
  · -- the second release of an object does not return
    intro s c _ _ hc s' o hstep
    rcases Fallible.bind_eq_ok.mp hstep with ⟨r, hrun, _⟩
    cases c with
    | release args =>
        rcases args with _ | ⟨ctx | v, args⟩
        · exact absurd id hc
        · rw [httpCall, knHttpRelease_twice (not_not.mp hc)] at hrun
          cases hrun
        · exact absurd id hc
    | _ => exact absurd id hc
  · exact Machine.along_of_forall (fun _ _ => trivial) calls _

/-- The request for `http://h/` is released twice. -/
theorem http_not_safe :
    let numerals : Numerals := ⟨fun _ => ⟨[0x30], by decide⟩, fun _ => none, fun _ => .finite 0,
      fun _ => 0⟩
    let http : HttpT .aarch64 := ⟨statusPending, 0, none, none, [], by decide⟩
    let url : CString := CString.literal "http://h/"
    let calls : List (HttpCall .aarch64) :=
      [.request (fun _ => some http) [.value (.string url.bytes)], .release [.request 0],
        .release [.request 0]]
    (httpMachine numerals .aarch64).run calls = .error .nullDeref ∧
      ¬ ∃ s done, (httpMachine numerals .aarch64).run calls = .ok (s, done) ∧
        ∀ o ∈ done, o.Right := by
  intro numerals http url calls
  have hrun : (httpMachine numerals .aarch64).run calls = .error .nullDeref := rfl
  refine ⟨hrun, ?_⟩
  rintro ⟨s, done, hok, _⟩
  rw [hrun] at hok
  cases hok

end Http
end KnShim
