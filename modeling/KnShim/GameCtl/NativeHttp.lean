import KnShim.Lua.Frame
import KnShim.Lua.Value

/-!
# NativeHttp — the wrappers of the game's own HTTP functions

`knDownloadFile` and `knHttpPost` hand their arguments to a function of the game and return the
boolean that it returns.  Where an argument that has to be a string is missing, they are to return
`false` without calling the game.

`knDownloadFile` asks `lua_toboolean`, where it means to push a boolean, so it returns its own last
argument.  Both take the length of a string before they look whether there is one.
`wrapper_right_iff` says what is left: `knHttpPost`, on a URL that is a string or a number.
-/

namespace KnShim
namespace GameCtl

open Lib Lua

/-! ## The Lua stack -/

variable (numerals : Numerals)

/-- `lua_tolstring`; a number becomes a string in its slot. -/
def luaToLString (script : Frame Value) (index : Nat) : Option Bytes × Frame Value :=
  match (script.get? index).bind (Value.toLString numerals) with
  | none => (none, script)
  | some bs => (some bs, script.set index (.string bs))

/-- `lua_tostring`. -/
def luaToString (script : Frame Value) (index : Nat) : Option CString × Frame Value :=
  ((luaToLString numerals script index).1.map CString.upToNul,
    (luaToLString numerals script index).2)

/-- `lua_toboolean`. -/
def luaToBoolean (script : Frame Value) (index : Nat) : Bool :=
  ((script.get? index).map Value.toBoolean).getD false

/-! ## The functions -/

/-- `strlen`. -/
def strlen : Option CString → Fallible Nat
  | none => .error .nullDeref
  | some s => .ok s.length

/-- `QiString`, without the buffer for short strings. -/
structure QiString where
  data : Option CString
  allocatedSize : BitVec 32
  length : BitVec 32

/-- The `QiString` of a C string. -/
def QiString.ofText (s : CString) : QiString :=
  ⟨some s, BitVec.ofNat 32 s.length, BitVec.ofNat 32 s.length⟩

/-- A call of a function of the game. -/
inductive NativeCall where
  | downloadFile (url path : QiString)
  | httpPost (url : QiString) (buffer : Option Bytes) (size : BitVec 32)

/-- `MakeQiString`, of a `lua_tostring`; the macro writes its argument three times. -/
def makeQiString (script : Frame Value) (index : Nat) : Fallible (QiString × Frame Value) := do
  let (data, script) := luaToString numerals script index
  let (text, script) := luaToString numerals script index
  let allocatedSize ← strlen text
  let (text, script) := luaToString numerals script index
  let length ← strlen text
  return (⟨data, BitVec.ofNat 32 allocatedSize, BitVec.ofNat 32 length⟩, script)

variable (native : NativeCall → Bool)

/-- What a wrapper leaves: the stack, the calls of the game, and how many values it returns. -/
structure Outcome where
  frame : Frame Value
  calls : List NativeCall
  results : Nat

/-- `knDownloadFile`; `native` is what the functions of the game return. -/
def knDownloadFile (script : Frame Value) : Fallible Outcome := do
  let (qUrl, script) ← makeQiString numerals script 1
  let (qPath, script) ← makeQiString numerals script 2
  if qUrl.data = none ∨ qPath.data = none then
    -- a question at index 0, whose answer is dropped
    let _ := luaToBoolean script 0
    return ⟨script, [], 1⟩
  else
    let status := native (.downloadFile qUrl qPath)
    let _ := luaToBoolean script status.toNat
    return ⟨script, [.downloadFile qUrl qPath], 1⟩

/-- `knHttpPost`. -/
def knHttpPost (script : Frame Value) : Fallible Outcome := do
  let (qUrl, script) ← makeQiString numerals script 1
  let (buffer, script) := luaToLString numerals script 2
  let size := (buffer.map List.length).getD 0
  let call : NativeCall := .httpPost qUrl buffer (BitVec.ofNat 32 size)
  return ⟨script.push (.boolean (native call)), [call], 1⟩

inductive Wrapper where
  | downloadFile
  | httpPost
  deriving DecidableEq

def Wrapper.call : Wrapper → Frame Value → Fallible Outcome
  | .downloadFile => knDownloadFile numerals native
  | .httpPost => knHttpPost numerals native

/-! ## What they are to do -/

/-- The number of arguments that have to be strings: the URL, and the path. -/
def Wrapper.required : Wrapper → Nat
  | .downloadFile => 2
  | .httpPost => 1

/-- The arguments that have to be strings are there, and are strings or numbers. -/
def Wrapper.Given (f : Wrapper) (args : List Value) : Prop :=
  ∀ i < f.required, ∃ v, args[i]? = some v ∧ v.isString = true

/-- The call returns one value that it has pushed: the boolean that the game returns, or `false`,
without a call of the game, when a string is missing. -/
def Wrapper.Right (f : Wrapper) (args : List Value) : Prop :=
  ∃ o v, f.call numerals native (.enter args) = .ok o ∧ o.frame.Returns o.results v ∧
    (f.Given args → ∃ call, o.calls = [call] ∧ v = .boolean (native call)) ∧
    (¬ f.Given args → o.calls = [] ∧ v = .boolean false)

/-! ## Strings from the stack -/

section Strings

variable {numerals} {script script' : Frame Value} {index : Nat}

/-- Reading a string changes at most its slot. -/
theorem luaToLString_slots (numerals : Numerals) (script : Frame Value) (index : Nat) :
    (luaToLString numerals script index).2.nargs = script.nargs ∧
      (luaToLString numerals script index).2.slots.length = script.slots.length := by
  rw [luaToLString]
  split
  · exact ⟨rfl, rfl⟩
  · simp [Frame.set]

theorem luaToLString_string {v : Value} {bs : Bytes} (hv : script.get? index = some v)
    (hbs : v.toLString numerals = some bs) :
    luaToLString numerals script index = (some bs, script.set index (.string bs)) := by
  simp [luaToLString, hv, hbs]

/-- A string that has been read is read again. -/
theorem luaToLString_again {v : Value} {bs : Bytes} (hv : script.get? index = some v) :
    luaToLString numerals (script.set index (.string bs)) index =
      (some bs, script.set index (.string bs)) := by
  rw [luaToLString_string (Frame.get?_set_self hv _) rfl, Frame.set_set]

theorem makeQiString_string {v : Value} {bs : Bytes} (hv : script.get? index = some v)
    (hbs : v.toLString numerals = some bs) :
    makeQiString numerals script index =
      .ok (.ofText (CString.upToNul bs), script.set index (.string bs)) := by
  simp [makeQiString, luaToString, luaToLString_string hv hbs, luaToLString_again hv, strlen,
    QiString.ofText]

/-- The length of a string that is not there. -/
theorem makeQiString_null (h : (script.get? index).bind (Value.toLString numerals) = none) :
    makeQiString numerals script index = .error .nullDeref := by
  simp [makeQiString, luaToString, luaToLString, h, strlen]

/-- A `QiString` that is made has its text, and nothing is pushed for it. -/
theorem makeQiString_eq_ok {q : QiString}
    (h : makeQiString numerals script index = .ok (q, script')) :
    (∃ v bs, script.get? index = some v ∧ v.toLString numerals = some bs ∧
      q = .ofText (CString.upToNul bs)) ∧
      script'.nargs = script.nargs ∧ script'.slots.length = script.slots.length := by
  cases hbs : (script.get? index).bind (Value.toLString numerals) with
  | none =>
      rw [makeQiString_null hbs] at h
      cases h
  | some bs =>
      rcases Option.bind_eq_some_iff.mp hbs with ⟨v, hv, hv'⟩
      rw [makeQiString_string hv hv'] at h
      cases h
      exact ⟨⟨v, bs, hv, hv', rfl⟩, rfl, by simp [Frame.set]⟩

end Strings

/-! ## The two wrappers -/

variable {numerals native}

/-- `knDownloadFile` pushes nothing. -/
theorem knDownloadFile_frame {script : Frame Value} {o : Outcome}
    (h : knDownloadFile numerals native script = .ok o) :
    o.frame.nargs = script.nargs ∧ o.frame.slots.length = script.slots.length := by
  rcases Fallible.bind_eq_ok.mp h with ⟨⟨qUrl, script₁⟩, hurl, h⟩
  rcases Fallible.bind_eq_ok.mp h with ⟨⟨qPath, script₂⟩, hpath, h⟩
  rcases makeQiString_eq_ok hurl with ⟨_, hnargs₁, hslots₁⟩
  rcases makeQiString_eq_ok hpath with ⟨_, hnargs₂, hslots₂⟩
  have hframe : o.frame = script₂ := by
    dsimp only at h
    split_ifs at h
    · cases h
      rfl
    · cases h
      rfl
  rw [hframe]
  exact ⟨hnargs₂.trans hnargs₁, hslots₂.trans hslots₁⟩

/-- On a URL, `knHttpPost` pushes what the game returns. -/
theorem knHttpPost_string (native : NativeCall → Bool) {url : Value} {bs : Bytes}
    (hurl : url.toLString numerals = some bs) (rest : List Value) :
    ∃ o buffer size, knHttpPost numerals native (.enter (url :: rest)) = .ok o ∧
      o.calls = [.httpPost (.ofText (CString.upToNul bs)) buffer size] ∧
      o.frame.Returns o.results
        (.boolean (native (.httpPost (.ofText (CString.upToNul bs)) buffer size))) := by
  have hget : (Frame.enter (url :: rest)).get? 1 = some url := rfl
  let script := luaToLString numerals ((Frame.enter (url :: rest)).set 1 (.string bs)) 2
  -- reading the two strings leaves the arguments on the stack and nothing above them
  have hslots : script.2.nargs = script.2.slots.length := by
    rcases luaToLString_slots numerals ((Frame.enter (url :: rest)).set 1 (.string bs)) 2 with
      ⟨hnargs, hlength⟩
    rw [hnargs, hlength]
    simp [Frame.set, Frame.enter]
  let size := BitVec.ofNat 32 ((script.1.map List.length).getD 0)
  let call : NativeCall := .httpPost (.ofText (CString.upToNul bs)) script.1 size
  refine ⟨⟨script.2.push (.boolean (native call)), [call], 1⟩, script.1, size, ?_, rfl,
    Frame.returns_push hslots _⟩
  rw [knHttpPost, makeQiString_string hget hurl]
  rfl

/-- Without a URL, `knHttpPost` takes the length of `NULL`. -/
theorem knHttpPost_null {args : List Value}
    (h : args[0]?.bind (Value.toLString numerals) = none) :
    knHttpPost numerals native (.enter args) = .error .nullDeref := by
  have hnull : makeQiString numerals (.enter args) 1 = .error .nullDeref := makeQiString_null h
  rw [knHttpPost, hnull]
  rfl

/-- `knDownloadFile` returns nothing that it has pushed. -/
theorem knDownloadFile_never_right (args : List Value) :
    ¬ Wrapper.Right numerals native .downloadFile args := by
  rintro ⟨o, v, hcall, hreturns, _⟩
  have hframe : knDownloadFile numerals native (.enter args) = .ok o := hcall
  rcases knDownloadFile_frame hframe with ⟨hnargs, hlength⟩
  exact Frame.not_returns (hnargs.trans hlength.symm) _ _ hreturns

/-- `knDownloadFile` returns one of its arguments, or does not return; `knHttpPost` is right exactly
when its first argument is a string or a number. -/
theorem wrapper_right_iff (numerals : Numerals) (native : NativeCall → Bool) (f : Wrapper)
    (args : List Value) :
    f.Right numerals native args ↔
      f = .httpPost ∧ ∃ url rest, args = url :: rest ∧ url.isString = true := by
  cases f with
  | downloadFile => exact iff_of_false (knDownloadFile_never_right args) (fun h => by cases h.1)
  | httpPost =>
      constructor
      · rintro ⟨o, v, hcall, _⟩
        refine ⟨rfl, ?_⟩
        rcases args with _ | ⟨url, rest⟩
        · rw [Wrapper.call, knHttpPost_null rfl] at hcall
          cases hcall
        · refine ⟨url, rest, rfl, ?_⟩
          rw [← Value.isSome_toLString numerals]
          by_contra hnone
          rw [Wrapper.call, knHttpPost_null (by simpa using hnone)] at hcall
          cases hcall
      · rintro ⟨_, url, rest, rfl, hurl⟩
        rw [← Value.isSome_toLString numerals] at hurl
        rcases Option.isSome_iff_exists.mp hurl with ⟨bs, hbs⟩
        rcases knHttpPost_string native hbs rest with
          ⟨o, buffer, size, hcall, hcalls, hreturns⟩
        refine ⟨o, _, hcall, hreturns, fun _ => ⟨_, hcalls, rfl⟩, ?_⟩
        -- the URL is there, so this is not the other case
        intro hgiven
        refine absurd (fun i hi => ?_) hgiven
        obtain rfl : i = 0 := Nat.lt_one_iff.mp hi
        exact ⟨url, rfl, by rw [← Value.isSome_toLString numerals, hbs]; rfl⟩

/-- The game downloads the file, and the script gets its own path back.  Without a path the length of
`NULL` is taken. -/
theorem knDownloadFile_not_right :
    let numerals : Numerals := ⟨fun _ => ⟨[0x30], by decide⟩, fun _ => none, fun _ => .finite 0,
      fun _ => 0⟩
    let url : Value := .string [0x75]
    let path : Value := .string [0x70]
    ((knDownloadFile numerals (fun _ => true) (.enter [url, path])).toOption.map
        (fun o => (o.calls.length, o.frame.returned o.results))) = some (1, [path]) ∧
      (knDownloadFile numerals (fun _ => true) (.enter [url])).toOption.isNone ∧
      ¬ Wrapper.Right numerals (fun _ => true) .downloadFile [url, path] ∧
      ¬ Wrapper.Right numerals (fun _ => true) .downloadFile [url] := by
  intro numerals url path
  have hresult : ((knDownloadFile numerals (fun _ => true) (.enter [url, path])).toOption.map
      (fun o => (o.calls.length, o.frame.returned o.results))) = some (1, [path]) := by
    decide +kernel
  have hfault : (knDownloadFile numerals (fun _ => true) (.enter [url])).toOption.isNone := by
    decide +kernel
  exact ⟨hresult, hfault, knDownloadFile_never_right _, knDownloadFile_never_right _⟩

end GameCtl
end KnShim
