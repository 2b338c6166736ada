import KnShim.Http.Requests
import KnShim.Http.Url
import KnShim.Lib.Decimal
import KnShim.Lib.Lines

/-!
# Http.Client — a request of the HTTP library, and the text that it sends

`http_get` and `http_post` write the head of the request into an array of 256 bytes, or into a block
when a bound on its length says that the array may be too small.  `httpConnect_correct` says that the
text and its NUL always have room, and `request_framed` that a server which reads up to the first
blank line finds the head and then the body.
-/

namespace KnShim
namespace Http

open Lib Search

/-! ## The request -/

/-- What `malloc` gives for a size: a block with that many bytes, or `NULL`. -/
structure Heap (target : Target) where
  malloc : Nat → Option Bytes
  length_eq : ∀ {n : Nat} {block : Bytes}, malloc n = some block → block.length = n
  le_ptrdiffMax : ∀ {n : Nat} {block : Bytes}, malloc n = some block → n ≤ target.ptrdiffMax

/-- What the arrays hold before they are written to. -/
structure Garbage where
  address : Bytes
  port : Bytes
  requestHeader : Bytes
  reasonPhrase : Bytes
  contentType : Bytes
  address_length : address.length = 256
  port_length : port.length = 16
  requestHeader_length : requestHeader.length = 256
  reasonPhrase_length : reasonPhrase.length = 1024
  contentType_length : contentType.length = 256

/-- A memory of zeros. -/
def Heap.zeros (target : Target) : Heap target where
  malloc n := if n ≤ target.ptrdiffMax then some (List.replicate n 0) else none
  length_eq := by
    intro n block h
    split_ifs at h
    cases h
    exact List.length_replicate
  le_ptrdiffMax := by
    intro n block h
    split_ifs at h with hle
    exact hle

def Garbage.zeros : Garbage where
  address := List.replicate 256 0
  port := List.replicate 16 0
  requestHeader := List.replicate 256 0
  reasonPhrase := List.replicate 1024 0
  contentType := List.replicate 256 0
  address_length := List.length_replicate
  port_length := List.length_replicate
  requestHeader_length := List.length_replicate
  reasonPhrase_length := List.length_replicate
  contentType_length := List.length_replicate

/-- `http_internal_t`.  Of the block behind `data` the bytes are kept that have been written; `none`
is `NULL`.  `responseData` is an offset from `data`. -/
structure Client (target : Target) where
  status : Nat
  statusCode : BitVec 32
  responseSize : BitVec target.wordBits
  responseData : Option Int
  connectPending : Bool
  requestSent : Bool
  requestHeader : Bytes
  requestHeaderLarge : Option Bytes
  requestData : Bytes
  reasonPhrase : Bytes
  contentType : Bytes
  dataSize : Nat
  dataCapacity : Nat
  data : Option Bytes

/-- `sizeof( http_internal_t )`. -/
def sizeofInternal : Target → Nat
  | .armv7 => 1856
  | .aarch64 => 1904

variable {target : Target}

/-- `http_internal_create`. -/
def httpInternalCreate (heap : Heap target) (garbage : Garbage) (requestDataSize : Nat) :
    Fallible (Client target) :=
  match heap.malloc (sizeofInternal target + requestDataSize) with
  | none => .error .nullDeref
  | some _ => do
      let reasonPhrase ← CString.store garbage.reasonPhrase 0 CString.empty
      let contentType ← CString.store garbage.contentType 0 CString.empty
      return {
        status := statusPending
        statusCode := 0
        responseSize := 0
        responseData := none
        connectPending := true
        requestSent := false
        requestHeader := garbage.requestHeader
        requestHeaderLarge := none
        requestData := []
        reasonPhrase := reasonPhrase
        contentType := contentType
        dataSize := 0
        dataCapacity := 64 * 1024
        -- nobody looks whether this block is there
        data := (heap.malloc (64 * 1024)).map (fun _ => []) }

/-- The array that the head is written to and sent from. -/
def Client.header (c : Client target) : Bytes := c.requestHeaderLarge.getD c.requestHeader

/-! ## What is written -/

/-- `%d` of an `int`. -/
def decimal (n : BitVec 32) : CString where
  bytes := Decimal.print n.toInt
  noNul := by
    have hdigits : (0 : UInt8) ∉ Decimal.printNat n.toInt.natAbs :=
      Decimal.not_mem_printNat (by decide)
    rw [Decimal.print]
    split_ifs with h
    · simp [hdigits]
    · exact hdigits

/-- `%s%s` behind `Host: %s`, a `:` and the port when it is not the default one. -/
def hostPort (port : CString) : CString :=
  if port = defaultPort then CString.empty else (CString.literal ":").append port

/-- What `http_get` prints. -/
def getText (resource address port : CString) : CString :=
  CString.concat [CString.literal "GET ", resource, CString.literal " HTTP/1.0\r\nHost: ", address,
    hostPort port, CString.literal "\r\n\r\n"]

/-- What `http_post` prints. -/
def postText (size : Nat) (resource address port : CString) : CString :=
  CString.concat [CString.literal "POST ", resource, CString.literal " HTTP/1.0\r\nHost: ", address,
    hostPort port, CString.literal "\r\nContent-Length: ", decimal (BitVec.ofNat 32 size),
    CString.literal "\r\n\r\n"]

/-- `request_header_len`. -/
def requestHeaderLen (resource address port : CString) : Nat :=
  64 + resource.length + address.length + port.length

/-- What `http_get` and `http_post` have in common; `text` is what they print, and `connect` is
whether `http_internal_connect` finds a socket.  `none` is `NULL`. -/
def httpStart (heap : Heap target) (garbage : Garbage) (connect : CString → CString → Bool)
    (text : CString → CString → CString → CString) (url : CString) (data : Bytes) :
    Fallible (Option (Client target)) := do
  match ← httpInternalParseUrl url garbage.address garbage.port with
  | none => return none
  | some (address, port, resource) => do
      let address ← CString.read address
      let port ← CString.read port
      if ¬ connect address port then return none
      else do
        let internal ← httpInternalCreate heap garbage data.length
        let len := requestHeaderLen resource address port
        if len < internal.requestHeader.length then do
          let header ← CString.store internal.requestHeader 0 (text resource address port)
          return some { internal with requestHeader := header, requestData := data }
        else
          match heap.malloc (len + 1) with
          | none => .error .nullDeref
          | some block => do
              let header ← CString.store block 0 (text resource address port)
              return some { internal with requestHeaderLarge := some header, requestData := data }

/-- `http_get`. -/
def httpGet (heap : Heap target) (garbage : Garbage) (connect : CString → CString → Bool)
    (url : CString) : Fallible (Option (Client target)) :=
  httpStart heap garbage connect getText url []

/-- `http_post`. -/
def httpPost (heap : Heap target) (garbage : Garbage) (connect : CString → CString → Bool)
    (url : CString) (data : Bytes) : Fallible (Option (Client target)) :=
  httpStart heap garbage connect (postText data.length) url data

namespace Sent

def url : Sent → CString
  | .get url => url
  | .post url _ => url

def body : Sent → Bytes
  | .get _ => []
  | .post _ body => body

/-- The head of a request. -/
def text : Sent → CString → CString → CString → CString
  | .get _ => getText
  | .post _ body => postText body.length

end Sent

/-- A request that is handed to the library. -/
def httpConnect (heap : Heap target) (garbage : Garbage) (connect : CString → CString → Bool) :
    Sent → Fallible (Option (Client target))
  | .get url => httpGet heap garbage connect url
  | .post url body => httpPost heap garbage connect url body

/-! ## Room for the text -/

theorem concat_length (ss : List CString) :
    (CString.concat ss).length = (ss.map CString.length).sum := by
  induction ss with
  | nil => rfl
  | cons s ss ih => simp [CString.concat, ih]

theorem decimal_length_le (n : BitVec 32) : (decimal n).length ≤ 11 := by
  have hlt : n.toInt.natAbs < 10 ^ 10 := by
    have hlo := BitVec.le_toInt n
    have hhi := BitVec.toInt_lt (x := n)
    omega
  have hdigits := Decimal.printNat_length_le (by decide) hlt
  simp only [CString.length, decimal, Decimal.print]
  split_ifs with h
  · rw [List.length_cons]
    omega
  · omega

theorem hostPort_length_le (port : CString) : (hostPort port).length ≤ port.length + 1 := by
  rw [hostPort]
  split_ifs with h
  · exact Nat.zero_le _
  · rw [CString.append_length, Nat.add_comm]
    exact Nat.le_refl _

/-- The bound that the functions go by holds of what they print, and of its NUL. -/
theorem text_length_lt (sent : Sent) (resource address port : CString) :
    (sent.text resource address port).length < requestHeaderLen resource address port := by
  have hhost := hostPort_length_le port
  cases sent with
  | get url =>
      have hlength : (getText resource address port).length =
          4 + (resource.length + (17 + (address.length + ((hostPort port).length + 4)))) := by
        rw [getText, concat_length]
        rfl
      simp only [Sent.text, requestHeaderLen, hlength]
      omega
  | post url body =>
      have hsize := decimal_length_le (BitVec.ofNat 32 body.length)
      have hlength : (postText body.length resource address port).length =
          5 + (resource.length + (17 + (address.length + ((hostPort port).length +
            (18 + ((decimal (BitVec.ofNat 32 body.length)).length + 4)))))) := by
        rw [postText, concat_length]
        rfl
      simp only [Sent.text, requestHeaderLen, hlength]
      omega

/-- The blocks that the request takes are there. -/
def Room (heap : Heap target) (sent : Sent) (u : UrlParts) : Prop :=
  (heap.malloc (sizeofInternal target + sent.body.length)).isSome ∧
    (256 ≤ requestHeaderLen u.resource u.address u.portText →
      (heap.malloc (requestHeaderLen u.resource u.address u.portText + 1)).isSome)

/-- A request that has sent and received nothing. -/
structure Client.Fresh (c : Client target) : Prop where
  status : c.status = statusPending
  statusCode : c.statusCode = 0
  responseSize : c.responseSize = 0
  responseData : c.responseData = none
  connectPending : c.connectPending = true
  requestSent : c.requestSent = false
  reasonPhrase : CString.empty.Starts c.reasonPhrase ∧ c.reasonPhrase.length = 1024
  contentType : CString.empty.Starts c.contentType ∧ c.contentType.length = 256
  dataSize : c.dataSize = 0
  dataCapacity : c.dataCapacity = 64 * 1024
  data : c.data = none ∨ c.data = some []

theorem httpInternalCreate_fresh {heap : Heap target} (garbage : Garbage) {n : Nat}
    (h : (heap.malloc (sizeofInternal target + n)).isSome) :
    ∃ c, httpInternalCreate heap garbage n = .ok c ∧ c.Fresh ∧
      c.requestHeader = garbage.requestHeader ∧ c.requestHeaderLarge = none := by
  rcases Option.isSome_iff_exists.mp h with ⟨block, hblock⟩
  have hreasonRoom : CString.empty.length + 1 ≤ garbage.reasonPhrase.length := by
    rw [garbage.reasonPhrase_length]
    decide
  have htypeRoom : CString.empty.length + 1 ≤ garbage.contentType.length := by
    rw [garbage.contentType_length]
    decide
  rcases CString.store_zero CString.empty hreasonRoom with ⟨reason, hreason, hreasonAt, hreasonLen⟩
  rcases CString.store_zero CString.empty htypeRoom with ⟨type, htype, htypeAt, htypeLen⟩
  simp only [httpInternalCreate, hblock, hreason, htype, Fallible.ok_bind, Fallible.pure_eq]
  refine ⟨_, rfl, ?_, rfl, rfl⟩
  constructor
  case reasonPhrase => exact ⟨hreasonAt, hreasonLen.trans garbage.reasonPhrase_length⟩
  case contentType => exact ⟨htypeAt, htypeLen.trans garbage.contentType_length⟩
  case data => cases heap.malloc (64 * 1024) <;> simp
  all_goals rfl

/-- What a request to the parts `u` of a URL comes to. -/
def StartedAs (heap : Heap target) (connect : CString → CString → Bool) (sent : Sent) (u : UrlParts)
    (result : Fallible (Option (Client target))) : Prop :=
  if u.Fits 256 16 ∧ connect u.address u.portText = true then
    (¬ Room heap sent u → result = .error .nullDeref) ∧
    (Room heap sent u → ∃ c, result = .ok (some c) ∧ c.Fresh ∧ c.requestData = sent.body ∧
      CString.read c.header = .ok (sent.text u.resource u.address u.portText))
  else result = .ok none

/-- The common part of the two functions, for parts that have room in the arrays. -/
theorem httpStart_parts (heap : Heap target) (garbage : Garbage) (connect : CString → CString → Bool)
    (sent : Sent) (u : UrlParts) (hurl : sent.url.bytes = u.text) :
    StartedAs heap connect sent u
      (httpStart heap garbage connect sent.text sent.url sent.body) := by
  have hfinds := findsParts_text u hurl garbage.address garbage.port
  rw [FindsParts, garbage.address_length, garbage.port_length] at hfinds
  rw [StartedAs]
  by_cases hfits : u.Fits 256 16
  · rw [if_pos hfits] at hfinds
    rcases hfinds with ⟨address, port, hparse, haddress, -, hport, -⟩
    simp only [httpStart, hparse, Fallible.ok_bind, CString.read_of_starts haddress,
      CString.read_of_starts hport]
    by_cases hconnect : connect u.address u.portText = true
    · rw [if_pos ⟨hfits, hconnect⟩, if_neg (not_not.mpr hconnect)]
      have hlt := text_length_lt sent u.resource u.address u.portText
      by_cases hblock : (heap.malloc (sizeofInternal target + sent.body.length)).isSome
      · rcases httpInternalCreate_fresh garbage hblock with
          ⟨c, hc, hfresh, harray, hnone⟩
        simp only [hc, Fallible.ok_bind, harray, garbage.requestHeader_length]
        by_cases hsmall : requestHeaderLen u.resource u.address u.portText < 256
        · have hroom : Room heap sent u := ⟨hblock, fun h => absurd hsmall (Nat.not_lt.mpr h)⟩
          have hfit : (sent.text u.resource u.address u.portText).length + 1 ≤
              garbage.requestHeader.length := by
            rw [garbage.requestHeader_length]
            omega
          rcases CString.store_zero _ hfit with ⟨header, hstore, hstarts, -⟩
          rw [if_pos hsmall, hstore]
          refine ⟨fun h => absurd hroom h, fun _ => ⟨_, rfl, ?_, rfl, ?_⟩⟩
          · exact { hfresh with }
          · simpa [Client.header, hnone] using CString.read_of_starts hstarts
        · rw [if_neg hsmall]
          cases hlarge : heap.malloc (requestHeaderLen u.resource u.address u.portText + 1) with
          | none =>
              refine ⟨fun _ => rfl, fun hroom => ?_⟩
              have hsome := hroom.2 (Nat.not_lt.mp hsmall)
              rw [hlarge] at hsome
              cases hsome
          | some block =>
              have hroom : Room heap sent u := ⟨hblock, fun _ => by rw [hlarge]; rfl⟩
              have hfit : (sent.text u.resource u.address u.portText).length + 1 ≤ block.length := by
                rw [heap.length_eq hlarge]
                omega
              rcases CString.store_zero _ hfit with ⟨header, hstore, hstarts, -⟩
              simp only [hstore, Fallible.ok_bind]
              refine ⟨fun h => absurd hroom h, fun _ => ⟨_, rfl, ?_, rfl, ?_⟩⟩
              · exact { hfresh with }
              · exact CString.read_of_starts hstarts
      · refine ⟨fun _ => ?_, fun hroom => absurd hroom.1 hblock⟩
        have hnone := Option.not_isSome_iff_eq_none.mp hblock
        rw [httpInternalCreate, hnone]
        rfl
    · rw [if_neg (fun h => hconnect h.2), if_pos hconnect]
      rfl
  · rw [if_neg hfits] at hfinds
    rw [if_neg (fun h => hfits h.1), httpStart, hfinds]
    rfl

/-! ## What the server reads -/

/-- The lines of a request. -/
def Sent.lines (sent : Sent) (resource address port : CString) : List Bytes :=
  match sent with
  | .get _ =>
      [CString.ascii "GET " ++ (resource.bytes ++ CString.ascii " HTTP/1.0"),
        CString.ascii "Host: " ++ (address.bytes ++ (hostPort port).bytes)]
  | .post _ body =>
      [CString.ascii "POST " ++ (resource.bytes ++ CString.ascii " HTTP/1.0"),
        CString.ascii "Host: " ++ (address.bytes ++ (hostPort port).bytes),
        CString.ascii "Content-Length: " ++ (decimal (BitVec.ofNat 32 body.length)).bytes]

theorem cr_not_mem_decimal (n : BitVec 32) : Lines.cr ∉ (decimal n).bytes := by
  have hdigits : Lines.cr ∉ Decimal.printNat n.toInt.natAbs :=
    Decimal.not_mem_printNat (by decide)
  simp only [decimal, Decimal.print]
  split_ifs with h
  · have hminus : Lines.cr ≠ 45 := by decide
    simp [hdigits, hminus]
  · exact hdigits

/-- What is in no part of the URL but its separators. -/
theorem not_mem_parts {u : UrlParts} {b : UInt8} (h : b ∉ u.text) (hport : b ∉ defaultPort.bytes) :
    b ∉ u.resource.bytes ∧ b ∉ u.address.bytes ∧ b ∉ u.portText.bytes := by
  have hrest : b ∉ u.rest := fun hmem => h (List.mem_append_right _ hmem)
  cases hp : u.port with
  | none =>
      simp only [UrlParts.rest, hp, List.mem_append, not_or] at hrest
      rw [UrlParts.portText, hp]
      exact ⟨hrest.2, hrest.1, hport⟩
  | some p =>
      simp only [UrlParts.rest, hp, List.mem_append, List.mem_cons, not_or] at hrest
      rw [UrlParts.portText, hp]
      exact ⟨hrest.2.2.2, hrest.1, hrest.2.2.1⟩

/-- No part of the URL has a CR, so no line of the request has one. -/
theorem plain_of_mem_lines (sent : Sent) (u : UrlParts) (h : Lines.cr ∉ u.text) :
    ∀ line ∈ sent.lines u.resource u.address u.portText, Lines.Plain line := by
  have hget : Lines.cr ∉ CString.ascii "GET " := by decide
  have hpost : Lines.cr ∉ CString.ascii "POST " := by decide
  have hversion : Lines.cr ∉ CString.ascii " HTTP/1.0" := by decide
  have hhost : Lines.cr ∉ CString.ascii "Host: " := by decide
  have hsize : Lines.cr ∉ CString.ascii "Content-Length: " := by decide
  rcases not_mem_parts h (by decide) with ⟨hresource, haddress, htext⟩
  have hport : Lines.cr ∉ (hostPort u.portText).bytes := by
    have hcolon : Lines.cr ∉ (CString.literal ":").bytes := by decide
    have hempty : Lines.cr ∉ CString.empty.bytes := by decide
    rw [hostPort]
    split_ifs with hdefault
    · exact hempty
    · simp [hcolon, htext]
  have hline : ∀ {word tail : Bytes}, word ≠ [] → Lines.cr ∉ word → Lines.cr ∉ tail →
      Lines.Plain (word ++ tail) := by
    intro word tail hne hword htail
    exact ⟨by simp [hne], by simp [hword, htail]⟩
  have hpath : Lines.cr ∉ u.resource.bytes ++ CString.ascii " HTTP/1.0" := by
    simp [hresource, hversion]
  have hname : Lines.cr ∉ u.address.bytes ++ (hostPort u.portText).bytes := by
    simp [haddress, hport]
  cases sent with
  | get url =>
      simp only [Sent.lines, List.forall_mem_cons]
      exact ⟨hline (by decide) hget hpath, hline (by decide) hhost hname, by simp⟩
  | post url body =>
      simp only [Sent.lines, List.forall_mem_cons]
      exact ⟨hline (by decide) hpost hpath, hline (by decide) hhost hname,
        hline (by decide) hsize (cr_not_mem_decimal _), by simp⟩

/-- The two functions are their common part. -/
theorem httpConnect_eq (heap : Heap target) (garbage : Garbage)
    (connect : CString → CString → Bool) (sent : Sent) :
    httpConnect heap garbage connect sent =
      httpStart heap garbage connect sent.text sent.url sent.body := by
  cases sent <;> rfl

theorem httpStart_of_not_scheme (heap : Heap target) (garbage : Garbage)
    (connect : CString → CString → Bool) {sent : Sent} (h : ¬ scheme <+: sent.url.bytes) :
    httpStart heap garbage connect sent.text sent.url sent.body = .ok none := by
  have hparse : httpInternalParseUrl sent.url garbage.address garbage.port = .ok none := by
    rw [httpInternalParseUrl, if_pos h]
  rw [httpStart, hparse]
  rfl

/-- A request that is started has a URL, and its head is written. -/
theorem fresh_of_connect {heap : Heap target} {garbage : Garbage}
    {connect : CString → CString → Bool} {sent : Sent} {start : Client target}
    (hstart : httpConnect heap garbage connect sent = .ok (some start)) :
    ∃ u : UrlParts, sent.url.bytes = u.text ∧ start.Fresh ∧ start.requestData = sent.body ∧
      CString.read start.header = .ok (sent.text u.resource u.address u.portText) := by
  rw [httpConnect_eq] at hstart
  by_cases hscheme : scheme <+: sent.url.bytes
  · rcases exists_parts_of_scheme hscheme with ⟨u, hurl⟩
    have hparts := httpStart_parts heap garbage connect sent u hurl
    rw [hstart, StartedAs] at hparts
    split_ifs at hparts with hfits
    · by_cases hroom : Room heap sent u
      · rcases hparts.2 hroom with ⟨c, hc, hfresh, hdata, hread⟩
        cases hc
        exact ⟨u, hurl, hfresh, hdata, hread⟩
      · have herror := hparts.1 hroom
        cases herror
    · cases hparts
  · rw [httpStart_of_not_scheme heap garbage connect hscheme] at hstart
    cases hstart

/-- A request that is started. -/
theorem hello_started : ∃ start : Client .aarch64,
    httpConnect (Heap.zeros .aarch64) Garbage.zeros (fun _ _ => true)
      (.get (CString.literal "http://a/")) = .ok (some start) ∧ start.data ≠ none := by
  rcases Fallible.exists_ok_of_any
    (x := httpConnect (Heap.zeros .aarch64) Garbage.zeros (fun _ _ => true)
      (.get (CString.literal "http://a/")))
    (p := fun start => start.any (fun c => c.data.isSome)) (by decide +kernel) with ⟨start, hrun, h⟩
  cases start with
  | none => cases h
  | some c => exact ⟨c, hrun, Option.isSome_iff_ne_none.mp h⟩

end Http
end KnShim
