import KnShim.Http.Client

/-!
# Http.Process — one poll of a request

`http_process` never waits: a poll finds the socket connected or not, sends the request once, and
later takes what has arrived.  When the server closes the connection, what has been received is read
as a response.  The data is searched with `strstr` and `strchr` although nothing has put a NUL behind
it yet, so a search that does not succeed runs into memory that was never written to.
-/

namespace KnShim
namespace Http

open Lib Search

/-- What `recv` returns when `select` says that it will return. -/
inductive Arrival where
  | error
  | chunk (bytes : Bytes) (nonempty : bytes ≠ []) (fits : bytes.length ≤ 4096)
  | closed
  deriving DecidableEq

/-- What a call of `http_process` finds: whether the socket is connected, how much `send` takes of
the head and of the body (`none` is -1), what can be received, and the memory that there is. -/
structure Poll (target : Target) where
  connected : Bool
  sendHeader : Option Nat
  sendData : Option Nat
  arrivals : List Arrival
  heap : Heap target

/-- What goes over the connection. -/
inductive Event where
  | sent (bytes : Bytes)
  | received (bytes : Bytes)
  deriving DecidableEq

variable {target : Target}

/-! ## Sending and receiving -/

/-- `send` with the length `(int) n`, which is the first part of the array that is sent. -/
def send (bytes : Bytes) (taken : Option Nat) : Fallible (Option Bytes) :=
  let n := (BitVec.ofNat 32 bytes.length).toInt
  if n < 0 then .error .outOfBounds
  else .ok (taken.map fun k => (bytes.take n.toNat).take k)

/-- `memcpy` to the end of the data, in a block of `capacity` bytes. -/
def copyChunk (data : Bytes) (dataSize capacity : Nat) (bytes : Bytes) : Fallible Bytes :=
  if dataSize + bytes.length ≤ capacity then
    .ok (data.take dataSize ++ bytes ++ data.drop (dataSize + bytes.length))
  else .error .outOfBounds

/-- The new capacity, when the old one is less than `minSize`. -/
def grownCapacity (target : Target) (capacity minSize : Nat) : Nat :=
  let doubled := capacity * 2 % 2 ^ target.wordBits
  if doubled < minSize then minSize else doubled

/-- The branch of `http_process` for data that was received. -/
def appendChunk (heap : Heap target) (c : Client target) (bytes : Bytes) :
    Fallible (Client target) :=
  match c.data with
  | none => .error .nullDeref
  | some data =>
      let minSize := c.dataSize + bytes.length + 1
      if c.dataCapacity < minSize then
        let capacity := grownCapacity target c.dataCapacity minSize
        match heap.malloc capacity with
        | none => .error .nullDeref
        | some _ => do
            -- the new block holds what is copied to it and nothing else
            let data ← copyChunk (data.take c.dataSize) c.dataSize capacity bytes
            return { c with
              dataSize := c.dataSize + bytes.length, dataCapacity := capacity, data := some data }
      else do
        let data ← copyChunk data c.dataSize c.dataCapacity bytes
        return { c with dataSize := c.dataSize + bytes.length, data := some data }

/-! ## Reading the response -/

def space : UInt8 := 0x20

def contentTypeField : Bytes := CString.ascii "Content-Type: "

/-- `atoi`, which is `(int) strtol`. -/
def atoi (target : Target) (bs : Bytes) : BitVec 32 :=
  (Lua.Number.saturate target.wordBits (Decimal.strtol bs)).setWidth 32

/-- What the received data says. -/
inductive Reading where
  /-- no head, or no status code -/
  | nothing
  /-- a status code, and no reason phrase -/
  | code (statusCode : BitVec 32)
  | response (headerSize : Int) (statusCode : BitVec 32) (reason : Bytes)
      (contentType : Option Bytes)
  deriving DecidableEq

/-- The text between two offsets. -/
def slice (data : Bytes) (start stop : Nat) : Bytes := (data.drop start).take (stop - start)

/-- The content type, which is looked for in all of the data behind `pos`. -/
def readContentType (data : Bytes) (pos : Nat) : Fallible (Option Bytes) := do
  match ← search contentTypeField data pos with
  | none => return none
  | some found => do
      let start := found + contentTypeField.length
      match ← search Lines.crlf data start with
      | none => return none
      | some stop => return some (slice data start stop)

/-- The reason phrase, which begins at `pos`, and what comes behind it. -/
def readReason (data : Bytes) (headerSize : Int) (statusCode : BitVec 32) (pos : Nat) :
    Fallible Reading := do
  match ← search Lines.crlf data pos with
  | none => return .code statusCode
  | some reasonEnd => do
      let contentType ← readContentType data (reasonEnd + 1)
      return .response headerSize statusCode (slice data pos reasonEnd) contentType

/-- What `http_process` reads when the connection is closed. -/
def readResponse (target : Target) (data : Bytes) : Fallible Reading := do
  match ← search Lines.blank data 0 with
  | none => return .nothing
  | some headerEnd => do
      let headerSize := (BitVec.ofNat 32 (headerEnd + 4)).toInt
      match ← search [space] data 0 with
      | none => return .nothing
      | some versionEnd => do
          let codeStart := versionEnd + 1
          match ← search [space] data codeStart with
          | none => return .nothing
          | some codeEnd =>
              -- the code and its NUL go to an array of 16 bytes
              if 16 ≤ codeEnd - codeStart then .error .outOfBounds
              else
                let statusCode := atoi target (slice data codeStart codeEnd)
                readReason data headerSize statusCode (codeEnd + 1)

/-- A text in an array, cut off where the array ends. -/
def copyText (array text : Bytes) : Bytes :=
  let text := text.take (array.length - 1)
  text ++ 0 :: array.drop (text.length + 1)

/-- The branch of `http_process` for a connection that was closed. -/
def finish (c : Client target) : Fallible (Client target) :=
  match c.data with
  | none => .error .nullDeref
  | some data => do
      match ← readResponse target data with
      | .nothing => return { c with status := statusFailed }
      | .code statusCode => return { c with status := statusFailed, statusCode := statusCode }
      | .response headerSize statusCode reason contentType =>
          -- the NUL goes to `header_size + ( data_size - header_size )`
          if c.dataSize < c.dataCapacity then
            return { c with
              status := if statusCode.toInt < 300 then statusCompleted else statusFailed
              statusCode := statusCode
              reasonPhrase := copyText c.reasonPhrase reason
              contentType := (contentType.map (copyText c.contentType)).getD c.contentType
              responseData := some headerSize
              responseSize := BitVec.ofInt target.wordBits (c.dataSize - headerSize)
              data := some (data.take c.dataSize ++ 0 :: data.drop (c.dataSize + 1)) }
          else .error .outOfBounds

/-! ## The poll -/

/-- The loop of `http_process`. -/
def receive (heap : Heap target) : Client target → List Arrival →
    Fallible (Client target × List Event)
  | c, [] => .ok (c, [])
  | c, .error :: _ => .ok ({ c with status := statusFailed }, [])
  | c, .closed :: _ => do
      let c ← finish c
      return (c, [])
  | c, .chunk bytes _ _ :: rest => do
      let c ← appendChunk heap c bytes
      let (c, events) ← receive heap c rest
      return (c, .received bytes :: events)

/-- The head and the body go out in one poll. -/
def sendRequest (c : Client target) (p : Poll target) : Fallible (Client target × List Event) := do
  let header ← CString.read c.header
  match ← send header.bytes p.sendHeader with
  | none => return ({ c with status := statusFailed }, [])
  | some head =>
      if c.requestData.length ≠ 0 then
        match ← send c.requestData p.sendData with
        | none => return ({ c with status := statusFailed }, [.sent head])
        | some body => return ({ c with requestSent := true }, [.sent head, .sent body])
      else return ({ c with requestSent := true }, [.sent head])

namespace Client

/-- `http_process`, with what goes over the connection. -/
def httpProcess (c : Client target) (p : Poll target) : Fallible (Client target × List Event) :=
  if c.status = statusFailed then .ok (c, [])
  else
    let c := if c.connectPending ∧ p.connected then { c with connectPending := false } else c
    if c.connectPending then .ok (c, [])
    else if ¬ c.requestSent then sendRequest c p
    else receive p.heap c p.arrivals

/-- The polls of a request. -/
def machine (c : Client target) : Machine (Client target) (Poll target) (List Event) where
  init := c
  step := httpProcess

/-- What is received at `response_data`. -/
def response (c : Client target) : Fallible Bytes :=
  match c.responseData with
  | none => .ok []
  | some offset =>
      if 0 ≤ offset then readSlice (c.data.getD []) offset.toNat c.responseSize.toNat
      else .error .outOfBounds

end Client

end Http
end KnShim
