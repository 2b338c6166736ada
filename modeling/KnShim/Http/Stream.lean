import KnShim.Http.Process

/-!
# Http.Stream — what every run of polls keeps

`Progress` says how a request stands after some polls: what went out, what came in, and where the
data is.  Every poll keeps it (`Progress.poll`), so `stream_progress` holds of every run, whatever the
network does: the request goes out once and before anything is taken in, and the data is what was
received in the order in which it was.  When nothing comes behind the end of the stream, the result
of a completed request is all that stands behind the first blank line (`Answered`).
-/

namespace KnShim
namespace Http

open Lib Search

variable {target : Target}

/-! ## What a run keeps -/

/-- What has been received. -/
def receivedBytes (events : List Event) : Bytes :=
  events.flatMap fun e =>
    match e with
    | .sent _ => []
    | .received bytes => bytes

@[simp] theorem receivedBytes_append (xs ys : List Event) :
    receivedBytes (xs ++ ys) = receivedBytes xs ++ receivedBytes ys :=
  List.flatMap_append

/-- Nothing, a part of the head, or a part of the head and then of the body. -/
inductive Sends (head body : Bytes) : List Event → Prop where
  | nothing : Sends head body []
  | head (k : Nat) : Sends head body [.sent (head.take k)]
  | both (k n : Nat) : Sends head body [.sent (head.take k), .sent (body.take n)]

/-- All that was received behind the first blank line. -/
def Result (received result : Bytes) : Prop :=
  ∃ head : Bytes, received = head ++ result ∧
    ∃ i, find Lines.blank head = some i ∧ i + 4 = head.length

/-- The block holds what was received, and has room for a NUL. -/
structure Holds (c : Client target) (received : Bytes) : Prop where
  data : c.data = some received ∨ c.data = some (received ++ [0])
  size : c.dataSize = received.length
  room : c.dataSize < c.dataCapacity
  bound : c.dataCapacity ≤ target.ptrdiffMax

/-- The result is the part `offset .. offset + size` of the received bytes, behind the first blank
line. -/
structure Located (received : Bytes) (c : Client target) (offset size : Nat) : Prop where
  offset_eq : c.responseData = some (offset : Int)
  size_eq : c.responseSize.toNat = size
  le : offset + size ≤ received.length
  blank : ∃ i, find Lines.blank (received.take offset) = some i ∧ i + 4 = offset

/-- The request goes out before anything comes in. -/
def Ordered (start : Client target) (head : CString) (events : List Event) : Prop :=
  ∃ sends receives, events = sends ++ receives ∧ Sends head.bytes start.requestData sends ∧
    ∀ e ∈ receives, ∃ bytes, e = .received bytes

/-- How a request stands after some polls, with what went over the connection; `start` is the
request as it was created, and `head` what its header says. -/
structure Progress (start : Client target) (head : CString) (events : List Event)
    (c : Client target) : Prop where
  request : c.header = start.header ∧ c.requestData = start.requestData
  holds : Holds c (receivedBytes events)
  ordered : Ordered start head events
  known : c.status = statusPending ∨ c.status = statusCompleted ∨ c.status = statusFailed
  waiting : c.connectPending = true → events = []
  unsent : c.requestSent = false → Sends head.bytes start.requestData events ∧
    c.status ≠ statusCompleted ∧ (c.status = statusPending → events = [])

/-- A completed request shows all that it has received behind the first blank line; the size of the
head is an `int`. -/
def Answered (c : Client target) (received : Bytes) : Prop :=
  c.status = statusCompleted → received.length < 2 ^ 31 →
    ∃ offset, Located received c offset (received.length - offset)

/-- Once the end of the stream has been taken in, `recv` delivers no bytes any more. -/
def Client.AtEnd (c : Client target) (p : Poll target) : Prop :=
  c.status = statusCompleted → ∀ a ∈ p.arrivals, a = .closed ∨ a = .error

instance (c : Client target) (p : Poll target) : Decidable (c.AtEnd p) :=
  inferInstanceAs (Decidable (c.status = statusCompleted →
    ∀ a ∈ p.arrivals, a = .closed ∨ a = .error))

/-! ## The data -/

/-- The new capacity is enough. -/
theorem le_grownCapacity (target : Target) (capacity minSize : Nat) :
    minSize ≤ grownCapacity target capacity minSize := by
  rw [grownCapacity]
  split_ifs with h
  · exact Nat.le_refl _
  · exact Nat.not_lt.mp h

/-- The capacity is doubled, unless that is too little. -/
theorem grownCapacity_le {target : Target} {capacity minSize : Nat} (h : capacity < minSize) :
    grownCapacity target capacity minSize ≤ 2 * minSize := by
  have hmod := Nat.mod_le (capacity * 2) (2 ^ target.wordBits)
  rw [grownCapacity]
  split_ifs with hless
  · omega
  · omega

/-- What was received goes behind what was received before. -/
theorem copyChunk_of_le {data received bytes : Bytes} {capacity : Nat}
    (hdata : data = received ∨ data = received ++ [0]) (hne : bytes ≠ [])
    (hroom : received.length + bytes.length ≤ capacity) :
    copyChunk data received.length capacity bytes = .ok (received ++ bytes) := by
  have hpos : 0 < bytes.length := List.length_pos_iff.mpr hne
  rw [copyChunk, if_pos hroom]
  rcases hdata with rfl | rfl
  · rw [List.take_length, List.drop_eq_nil_of_le (by omega), List.append_nil]
  · rw [List.take_left, List.drop_eq_nil_of_le (by simp; omega), List.append_nil]

variable {c c' : Client target} {received bytes : Bytes} {heap : Heap target}

/-- A chunk is appended, and nothing but the block changes, unless a block is needed that is not
there. -/
theorem Holds.appendChunk (h : Holds c received) (hne : bytes ≠ []) :
    (appendChunk heap c bytes = .error .nullDeref ∧
        ∃ n ≤ 2 * (received.length + bytes.length + 1), heap.malloc n = none) ∨
      ∃ c', Http.appendChunk heap c bytes = .ok c' ∧ Holds c' (received ++ bytes) ∧
        c' = { c with
          dataSize := c'.dataSize, dataCapacity := c'.dataCapacity,
          data := some (received ++ bytes) } := by
  rcases h with ⟨hdata, hsize, hroom, hbound⟩
  have hdata' : ∃ data, c.data = some data ∧ (data = received ∨ data = received ++ [0]) := by
    rcases hdata with hdata | hdata
    · exact ⟨received, hdata, Or.inl rfl⟩
    · exact ⟨received ++ [0], hdata, Or.inr rfl⟩
  rcases hdata' with ⟨data, hsome, hdata'⟩
  simp only [Http.appendChunk, hsome, hsize]
  by_cases hfull : c.dataCapacity < received.length + bytes.length + 1
  · rw [if_pos hfull]
    have hle := le_grownCapacity target c.dataCapacity (received.length + bytes.length + 1)
    have htake : data.take received.length = received := by
      rcases hdata' with rfl | rfl
      · exact List.take_length
      · exact List.take_left
    cases hmalloc : heap.malloc
        (grownCapacity target c.dataCapacity (received.length + bytes.length + 1)) with
    | none => exact Or.inl ⟨rfl, _, grownCapacity_le hfull, hmalloc⟩
    | some block =>
        have hcopy : copyChunk received received.length (grownCapacity target c.dataCapacity
            (received.length + bytes.length + 1)) bytes = .ok (received ++ bytes) :=
          copyChunk_of_le (Or.inl rfl) hne (by omega)
        refine Or.inr ⟨{ c with
          dataSize := received.length + bytes.length
          dataCapacity := grownCapacity target c.dataCapacity (received.length + bytes.length + 1)
          data := some (received ++ bytes) }, ?_, ?_, rfl⟩
        · simp only [htake, hcopy, Fallible.ok_bind]
          rfl
        · exact ⟨Or.inl rfl, (List.length_append).symm, hle, heap.le_ptrdiffMax hmalloc⟩
  · rw [if_neg hfull, copyChunk_of_le hdata' hne (by omega)]
    refine Or.inr ⟨{ c with
      dataSize := received.length + bytes.length, data := some (received ++ bytes) }, rfl, ?_, rfl⟩
    exact ⟨Or.inl rfl, (List.length_append).symm, Nat.not_lt.mp hfull, hbound⟩

/-! ## The end of the stream -/

theorem slice_append {start stop : Nat} (h : stop ≤ received.length) (ys : Bytes) :
    slice (received ++ ys) start stop = slice received start stop := by
  rw [slice, slice]
  by_cases hstart : start ≤ received.length
  · rw [List.drop_append_of_le_length hstart, List.take_append_of_le_length]
    rw [List.length_drop]
    omega
  · rw [Nat.sub_eq_zero_of_le (by omega), List.take_zero, List.take_zero]

theorem length_upToNul_le (xs : Bytes) : (CString.upToNul xs).length ≤ xs.length := by
  induction xs with
  | nil => exact Nat.le_refl _
  | cons b xs ih =>
      by_cases hb : b = 0
      · rw [CString.upToNul, dif_pos hb]
        exact Nat.zero_le _
      · rw [CString.upToNul, dif_neg hb]
        exact Nat.succ_le_succ ih

/-- The two searches for the content type. -/
theorem readContentType_append_zero {pos : Nat} {contentType : Option Bytes}
    (hpos : pos ≤ (CString.upToNul received).length)
    (h : readContentType received pos = .ok contentType) :
    readContentType (received ++ [0]) pos = .ok contentType := by
  rcases Fallible.bind_eq_ok.mp h with ⟨found, hfield, h⟩
  rw [readContentType, search_append_zero hpos hfield]
  cases found with
  | none => exact h
  | some found =>
      have hfieldLe := add_length_le_of_search hpos (by decide) hfield
      rcases Fallible.bind_eq_ok.mp h with ⟨stop, hstop, h⟩
      simp only [Fallible.ok_bind, search_append_zero hfieldLe hstop]
      cases stop with
      | none => exact h
      | some stop =>
          have hstopLe := add_length_le_of_search hfieldLe (by decide) hstop
          have hle := length_upToNul_le received
          simp only [slice_append (Nat.le_trans (Nat.le_of_add_right_le hstopLe) hle)]
          exact h

theorem readReason_append_zero {headerSize : Int} {statusCode : BitVec 32} {pos : Nat}
    {reading : Reading} (hpos : pos ≤ (CString.upToNul received).length)
    (h : readReason received headerSize statusCode pos = .ok reading) :
    readReason (received ++ [0]) headerSize statusCode pos = .ok reading := by
  rcases Fallible.bind_eq_ok.mp h with ⟨reasonEnd, hreason, h⟩
  rw [readReason, search_append_zero hpos hreason]
  cases reasonEnd with
  | none => exact h
  | some reasonEnd =>
      have hreasonLe := add_length_le_of_search hpos (by decide) hreason
      have hle := length_upToNul_le received
      have hnext : reasonEnd + 1 ≤ (CString.upToNul received).length := by
        simp only [Lines.crlf, List.length_cons, List.length_nil] at hreasonLe
        omega
      rcases Fallible.bind_eq_ok.mp h with ⟨contentType, htype, h⟩
      simp only [slice_append (Nat.le_trans (Nat.le_of_add_right_le hreasonLe) hle),
        readContentType_append_zero hnext htype, Fallible.ok_bind]
      exact h

/-- What is read off the data does not depend on the NUL behind it. -/
theorem readResponse_append_zero {reading : Reading}
    (h : readResponse target received = .ok reading) :
    readResponse target (received ++ [0]) = .ok reading := by
  have hle := length_upToNul_le received
  rcases Fallible.bind_eq_ok.mp h with ⟨headerEnd, hblank, h⟩
  rw [readResponse, search_append_zero (Nat.zero_le _) hblank]
  cases headerEnd with
  | none => exact h
  | some i =>
      rcases Fallible.bind_eq_ok.mp h with ⟨versionEnd, hversion, h⟩
      simp only [Fallible.ok_bind, search_append_zero (Nat.zero_le _) hversion]
      cases versionEnd with
      | none => exact h
      | some versionEnd =>
          have hversionLe := add_length_le_of_search (Nat.zero_le _) (by simp) hversion
          rw [List.length_singleton] at hversionLe
          rcases Fallible.bind_eq_ok.mp h with ⟨codeEnd, hcode, h⟩
          simp only [Fallible.ok_bind, search_append_zero hversionLe hcode]
          cases codeEnd with
          | none => exact h
          | some codeEnd =>
              have hcodeLe := add_length_le_of_search hversionLe (by simp) hcode
              rw [List.length_singleton] at hcodeLe
              have hslice : slice (received ++ [0]) (versionEnd + 1) codeEnd =
                  slice received (versionEnd + 1) codeEnd := slice_append (by omega) _
              simp only [hslice] at h ⊢
              split_ifs at h ⊢ with hlong
              exact readReason_append_zero hcodeLe h

/-- The text before the first NUL begins the data. -/
theorem take_upToNul {n : Nat} (h : n ≤ (CString.upToNul received).length) :
    received.take n = (CString.upToNul received).bytes.take n := by
  by_cases hnul : (0 : UInt8) ∈ received
  · rcases CString.starts_upToNul hnul with ⟨rest, hrest⟩
    conv_lhs => rw [hrest]
    exact List.take_append_of_le_length h
  · have htext : CString.upToNul received = ⟨received, hnul⟩ :=
      CString.upToNul_bytes ⟨received, hnul⟩
    rw [htext]

/-- A text that is read off the data ends before the first NUL. -/
theorem zero_not_mem_slice {start stop : Nat} (h : stop ≤ (CString.upToNul received).length) :
    (0 : UInt8) ∉ slice received start stop := by
  intro hmem
  have htake : slice received start stop = (received.take stop).drop start := by
    rw [slice, List.drop_take]
  rw [htake, take_upToNul h] at hmem
  exact (CString.upToNul received).noNul (List.mem_of_mem_take (List.mem_of_mem_drop hmem))

theorem zero_not_mem_contentType {pos : Nat} {contentType : Bytes}
    (hpos : pos ≤ (CString.upToNul received).length)
    (h : readContentType received pos = .ok (some contentType)) : (0 : UInt8) ∉ contentType := by
  rcases Fallible.bind_eq_ok.mp h with ⟨found, hfield, h⟩
  cases found with
  | none => cases h
  | some found =>
      have hfieldLe := add_length_le_of_search hpos (by decide) hfield
      rcases Fallible.bind_eq_ok.mp h with ⟨stop, hstop, h⟩
      cases stop with
      | none => cases h
      | some stop =>
          have hstopLe := add_length_le_of_search hfieldLe (by decide) hstop
          cases h
          exact zero_not_mem_slice (Nat.le_of_add_right_le hstopLe)

theorem response_of_readReason {headerSize headerSize' : Int} {statusCode statusCode' : BitVec 32}
    {pos : Nat} {reason : Bytes} {contentType : Option Bytes}
    (hpos : pos ≤ (CString.upToNul received).length)
    (h : readReason received headerSize statusCode pos =
      .ok (.response headerSize' statusCode' reason contentType)) :
    headerSize' = headerSize ∧ (0 : UInt8) ∉ reason ∧
      ∀ text, contentType = some text → (0 : UInt8) ∉ text := by
  rcases Fallible.bind_eq_ok.mp h with ⟨reasonEnd, hreason, h⟩
  cases reasonEnd with
  | none => cases h
  | some reasonEnd =>
      have hreasonLe := add_length_le_of_search hpos (by decide) hreason
      have hnext : reasonEnd + 1 ≤ (CString.upToNul received).length := by
        simp only [Lines.crlf, List.length_cons, List.length_nil] at hreasonLe
        omega
      rcases Fallible.bind_eq_ok.mp h with ⟨contentType, htype, h⟩
      cases h
      refine ⟨rfl, zero_not_mem_slice (Nat.le_of_add_right_le hreasonLe), fun text htext => ?_⟩
      exact zero_not_mem_contentType hnext (htext ▸ htype)

/-- A response begins behind the first blank line, and its texts have no NUL. -/
theorem response_of_readResponse {headerSize : Int} {statusCode : BitVec 32} {reason : Bytes}
    {contentType : Option Bytes}
    (h : readResponse target received = .ok (.response headerSize statusCode reason contentType)) :
    (∃ i, find Lines.blank (CString.upToNul received).bytes = some i ∧
      headerSize = (BitVec.ofNat 32 (i + 4)).toInt) ∧
      (0 : UInt8) ∉ reason ∧ ∀ text, contentType = some text → (0 : UInt8) ∉ text := by
  rcases Fallible.bind_eq_ok.mp h with ⟨headerEnd, hblank, h⟩
  cases headerEnd with
  | none => cases h
  | some i =>
      rcases find_of_search (Nat.zero_le _) hblank with ⟨-, hfind⟩
      rw [List.drop_zero, Nat.sub_zero] at hfind
      rcases Fallible.bind_eq_ok.mp h with ⟨versionEnd, hversion, h⟩
      cases versionEnd with
      | none => cases h
      | some versionEnd =>
          have hversionLe := add_length_le_of_search (Nat.zero_le _) (by simp) hversion
          rw [List.length_singleton] at hversionLe
          rcases Fallible.bind_eq_ok.mp h with ⟨codeEnd, hcode, h⟩
          cases codeEnd with
          | none => cases h
          | some codeEnd =>
              have hcodeLe := add_length_le_of_search hversionLe (by simp) hcode
              rw [List.length_singleton] at hcodeLe
              simp only at h
              split_ifs at h with hlong
              rcases response_of_readReason hcodeLe h with ⟨hsize, hnul⟩
              exact ⟨⟨i, hfind, hsize⟩, hnul⟩

/-- The string in the block is that in what was received. -/
theorem Holds.exists_data (h : Holds c received) : ∃ data, c.data = some data ∧
    (data = received ∨ data = received ++ [0]) ∧
    CString.upToNul data = CString.upToNul received := by
  rcases h.data with hdata | hdata
  · exact ⟨received, hdata, Or.inl rfl, rfl⟩
  · exact ⟨received ++ [0], hdata, Or.inr rfl, upToNul_append_zero received⟩

/-- The result is behind the first blank line. -/
theorem located_of_blank {i : Nat} (hsize : c.dataSize = received.length)
    (hblank : find Lines.blank (CString.upToNul received).bytes = some i)
    (hlt : received.length < 2 ^ 31)
    (hdata : c.responseData = some (BitVec.ofNat 32 (i + 4)).toInt)
    (hresponse : c.responseSize =
      BitVec.ofInt target.wordBits (c.dataSize - (BitVec.ofNat 32 (i + 4)).toInt)) :
    Located received c (i + 4) (received.length - (i + 4)) := by
  have hle := length_upToNul_le received
  have hend : i + 4 ≤ (CString.upToNul received).length :=
    add_length_le_of_find hblank (by decide)
  have hint : (BitVec.ofNat 32 (i + 4)).toInt = ((i + 4 : Nat) : Int) := by
    have hnat : (BitVec.ofNat 32 (i + 4)).toNat = i + 4 := by
      rw [BitVec.toNat_ofNat, Nat.mod_eq_of_lt (by omega)]
    rw [BitVec.toInt_eq_toNat_of_lt (by rw [hnat]; omega), hnat]
  constructor
  case offset_eq => rw [hdata, hint]
  case size_eq =>
    have hsub : ((c.dataSize : Int) - ((i + 4 : Nat) : Int)) =
        ((received.length - (i + 4) : Nat) : Int) := by
      rw [hsize]
      omega
    have hword : 32 ≤ target.wordBits := by cases target <;> decide
    have hpow : 2 ^ 32 ≤ 2 ^ target.wordBits := Nat.pow_le_pow_right (by decide) hword
    rw [hresponse, hint, hsub, BitVec.ofInt_natCast, BitVec.toNat_ofNat, Nat.mod_eq_of_lt]
    omega
  case le => omega
  case blank =>
    refine ⟨i, ?_, rfl⟩
    rw [take_upToNul hend]
    exact find_take hblank

/-- A response is read, or the request fails; nothing but the answer changes. -/
theorem Holds.finish (h : Holds c received) (hrun : finish c = .ok c') :
    Holds c' received ∧ (c'.status = statusFailed ∨ c'.status = statusCompleted) ∧
      c' = { c with
        status := c'.status, statusCode := c'.statusCode, reasonPhrase := c'.reasonPhrase,
        contentType := c'.contentType, responseData := c'.responseData,
        responseSize := c'.responseSize, data := c'.data } ∧
      Answered c' received := by
  rcases h.exists_data with ⟨data, hsome, hdata, htext⟩
  have hne : statusFailed ≠ statusCompleted := by decide
  simp only [Http.finish, hsome] at hrun
  rcases Fallible.bind_eq_ok.mp hrun with ⟨reading, hread, hrun⟩
  cases reading with
  | nothing =>
      cases hrun
      refine ⟨⟨?_, h.size, h.room, h.bound⟩, Or.inl rfl, rfl, fun hstatus => absurd hstatus hne⟩
      exact hsome ▸ h.data
  | code statusCode =>
      cases hrun
      refine ⟨⟨?_, h.size, h.room, h.bound⟩, Or.inl rfl, rfl, fun hstatus => absurd hstatus hne⟩
      exact hsome ▸ h.data
  | response headerSize statusCode reason contentType =>
      rcases response_of_readResponse hread with ⟨⟨i, hblank, rfl⟩, -⟩
      rw [htext] at hblank
      simp only [if_pos h.room] at hrun
      cases hrun
      refine ⟨⟨Or.inr ?_, h.size, h.room, h.bound⟩, ?_, rfl, fun _ hlt => ?_⟩
      · rw [h.size]
        rcases hdata with rfl | rfl
        · simp
        · simp
      · by_cases hcode : statusCode.toInt < 300
        · exact Or.inr (if_pos hcode)
        · exact Or.inl (if_neg hcode)
      · exact ⟨_, located_of_blank h.size hblank hlt rfl rfl⟩

/-! ## Every poll keeps how the request stands -/

variable {start : Client target} {head : CString} {events : List Event}

theorem Ordered.append_received (h : Ordered start head events) (bytes : Bytes) :
    Ordered start head (events ++ [.received bytes]) := by
  rcases h with ⟨sends, receives, rfl, hsends, hreceives⟩
  refine ⟨sends, receives ++ [.received bytes], List.append_assoc _ _ _, hsends, fun e he => ?_⟩
  rcases List.mem_append.mp he with he | he
  · exact hreceives e he
  · exact ⟨bytes, List.mem_singleton.mp he⟩

/-- A request that has been sent goes on with the same text. -/
theorem progress_of_sent (hpending : c.connectPending = false) (hsent : c.requestSent = true)
    (hrequest : c.header = start.header ∧ c.requestData = start.requestData)
    (hholds : Holds c (receivedBytes events)) (hordered : Ordered start head events)
    (hknown : c.status = statusPending ∨ c.status = statusCompleted ∨ c.status = statusFailed) :
    Progress start head events c where
  request := hrequest
  holds := hholds
  ordered := hordered
  known := hknown
  waiting := fun h => by rw [hpending] at h; cases h
  unsent := fun h => by rw [hsent] at h; cases h

/-- A poll that takes data in. -/
theorem Progress.receive (hpending : c.connectPending = false) (hsent : c.requestSent = true)
    (h : Progress start head events c) {arrivals : List Arrival} {taken : List Event}
    (hrun : receive heap c arrivals = .ok (c', taken)) :
    Progress start head (events ++ taken) c' := by
  induction arrivals generalizing c events taken with
  | nil =>
      cases hrun
      simpa using h
  | cons arrival arrivals ih =>
      cases arrival with
      | error =>
          cases hrun
          have hholds := h.holds
          rw [List.append_nil]
          exact progress_of_sent hpending hsent h.request
            ⟨hholds.data, hholds.size, hholds.room, hholds.bound⟩ h.ordered (Or.inr (Or.inr rfl))
      | closed =>
          rcases Fallible.bind_eq_ok.mp hrun with ⟨c₁, hfinish, hrun⟩
          cases hrun
          rw [List.append_nil]
          rcases h.holds.finish hfinish with ⟨hholds, hstatus, hframe, -⟩
          have hheader : c'.header = c.header := by rw [hframe]; rfl
          have hdata : c'.requestData = c.requestData := by rw [hframe]
          exact progress_of_sent (by rw [hframe]; exact hpending) (by rw [hframe]; exact hsent)
            ⟨hheader.trans h.request.1, hdata.trans h.request.2⟩ hholds h.ordered
            (Or.inr hstatus.symm)
      | chunk bytes hne hfits =>
          rcases Fallible.bind_eq_ok.mp hrun with ⟨c₁, happend, hrun⟩
          rcases Fallible.bind_eq_ok.mp hrun with ⟨⟨c₂, taken₂⟩, hrest, hrun⟩
          cases hrun
          rcases h.holds.appendChunk hne with ⟨herror, -⟩ | ⟨c₁', hok, hholds, hframe⟩
          · rw [happend] at herror
            cases herror
          rw [happend] at hok
          cases hok
          have hpending₁ : c₁.connectPending = false := by rw [hframe]; exact hpending
          have hsent₁ : c₁.requestSent = true := by rw [hframe]; exact hsent
          have hheader : c₁.header = c.header := by rw [hframe]; rfl
          have hdata : c₁.requestData = c.requestData := by rw [hframe]
          have hstatus : c₁.status = c.status := by rw [hframe]
          have hreceived : receivedBytes (events ++ [.received bytes]) =
              receivedBytes events ++ bytes := by
            rw [receivedBytes_append]
            simp [receivedBytes]
          have hstep : Progress start head (events ++ [.received bytes]) c₁ := by
            exact progress_of_sent hpending₁ hsent₁
              ⟨hheader.trans h.request.1, hdata.trans h.request.2⟩ (hreceived ▸ hholds)
              (h.ordered.append_received bytes) (hstatus ▸ h.known)
          simpa using ih hpending₁ hsent₁ hstep hrest

/-- `send` takes a first part of what it is given. -/
theorem exists_take_of_send {bytes sent : Bytes} {taken : Option Nat}
    (h : send bytes taken = .ok (some sent)) : ∃ k, sent = bytes.take k := by
  simp only [send] at h
  split_ifs at h with hneg
  cases taken with
  | none => cases h
  | some k =>
      cases h
      exact ⟨_, List.take_take⟩

/-- A request that has just been sent, or could not be. -/
theorem progress_of_sends (hsends : Sends head.bytes start.requestData events)
    (hreceived : receivedBytes events = []) (hpending : c.connectPending = false)
    (hrequest : c.header = start.header ∧ c.requestData = start.requestData)
    (hholds : Holds c [])
    (hstatus : c.status = statusFailed ∨ (c.requestSent = true ∧ c.status = statusPending)) :
    Progress start head events c := by
  have hordered : Ordered start head events :=
    ⟨events, [], (List.append_nil _).symm, hsends, by simp⟩
  have hcompleted : c.status ≠ statusCompleted := by
    intro h
    rcases hstatus with hfailed | ⟨-, hpending⟩
    · rw [hfailed] at h
      cases h
    · rw [hpending] at h
      cases h
  constructor
  case request => exact hrequest
  case holds => rwa [hreceived]
  case ordered => exact hordered
  case known =>
    rcases hstatus with hfailed | ⟨-, hpending⟩
    · exact Or.inr (Or.inr hfailed)
    · exact Or.inl hpending
  case waiting =>
    intro h
    rw [hpending] at h
    cases h
  case unsent =>
    intro hunsent
    refine ⟨hsends, hcompleted, fun hwaiting => ?_⟩
    rcases hstatus with hfailed | ⟨hsent, -⟩
    · rw [hfailed] at hwaiting
      cases hwaiting
    · rw [hunsent] at hsent
      cases hsent

/-- The request goes out, as far as `send` takes it. -/
theorem Progress.sendRequest (hhead : CString.read start.header = .ok head)
    (h : Progress start head [] c) (hpending : c.connectPending = false)
    (hstatus : c.status = statusPending) {p : Poll target} {sends : List Event}
    (hrun : sendRequest c p = .ok (c', sends)) : Progress start head sends c' := by
  rcases h.request with ⟨hheader, hdata⟩
  have hholds := h.holds
  rcases Fallible.bind_eq_ok.mp hrun with ⟨text, hread, hrun⟩
  rw [hheader, hhead] at hread
  cases hread
  rcases Fallible.bind_eq_ok.mp hrun with ⟨sentHead, hsend, hrun⟩
  cases sentHead with
  | none =>
      cases hrun
      exact progress_of_sends .nothing rfl hpending h.request
        ⟨hholds.data, hholds.size, hholds.room, hholds.bound⟩ (Or.inl rfl)
  | some sentHead =>
      rcases exists_take_of_send hsend with ⟨k, rfl⟩
      simp only at hrun
      split_ifs at hrun with hbody
      · rcases Fallible.bind_eq_ok.mp hrun with ⟨sentBody, hsend, hrun⟩
        cases sentBody with
        | none =>
            cases hrun
            exact progress_of_sends (.head k) rfl hpending h.request
              ⟨hholds.data, hholds.size, hholds.room, hholds.bound⟩ (Or.inl rfl)
        | some sentBody =>
            rcases exists_take_of_send hsend with ⟨n, rfl⟩
            cases hrun
            exact progress_of_sends (hdata ▸ .both k n) rfl hpending h.request
              ⟨hholds.data, hholds.size, hholds.room, hholds.bound⟩ (Or.inr ⟨rfl, hstatus⟩)
      · cases hrun
        exact progress_of_sends (.head k) rfl hpending h.request
          ⟨hholds.data, hholds.size, hholds.room, hholds.bound⟩ (Or.inr ⟨rfl, hstatus⟩)

/-- Every poll keeps how the request stands. -/
theorem Progress.poll (hhead : CString.read start.header = .ok head)
    (h : Progress start head events c) {p : Poll target} {happened : List Event}
    (hrun : c.httpProcess p = .ok (c', happened)) :
    Progress start head (events ++ happened) c' := by
  rw [Client.httpProcess] at hrun
  by_cases hfailed : c.status = statusFailed
  · rw [if_pos hfailed] at hrun
    cases hrun
    simpa using h
  · rw [if_neg hfailed] at hrun
    -- what the first part of the poll leaves
    generalize hconnected : (if c.connectPending ∧ p.connected then
      { c with connectPending := false } else c) = c₁ at hrun
    have hstep : Progress start head events c₁ ∧ c₁.status = c.status := by
      subst hconnected
      split_ifs with hnow
      · exact ⟨⟨h.request, ⟨h.holds.data, h.holds.size, h.holds.room, h.holds.bound⟩, h.ordered,
          h.known, by simp, h.unsent⟩, rfl⟩
      · exact ⟨h, rfl⟩
    rcases hstep with ⟨hstep, hstatus⟩
    simp only at hrun
    split_ifs at hrun with hpending hsent
    · cases hrun
      simpa using hstep
    · exact hstep.receive (by simpa using hpending) (by simpa using hsent) hrun
    · have hunsent : c₁.requestSent = false := by simpa using hsent
      rcases hstep.unsent hunsent with ⟨-, hcompleted, hnothing⟩
      have hwaiting : c₁.status = statusPending := by
        rcases hstep.known with hknown | hknown | hknown
        · exact hknown
        · exact absurd hknown hcompleted
        · exact absurd (hstatus.symm.trans hknown) hfailed
      have hevents := hnothing hwaiting
      subst hevents
      exact hstep.sendRequest hhead (by simpa using hpending) hwaiting hrun

/-- A request that was started is at its beginning, when it got the block for its data. -/
theorem progress_of_fresh (head : CString) (hfresh : start.Fresh) (hdata : start.data ≠ none) :
    Progress start head [] start := by
  have hempty : start.data = some [] := hfresh.data.resolve_left hdata
  have hbound : 64 * 1024 ≤ target.ptrdiffMax := by cases target <;> decide
  have hcompleted : start.status ≠ statusCompleted := by
    rw [hfresh.status]
    decide
  constructor
  case request => exact ⟨rfl, rfl⟩
  case holds =>
    refine ⟨Or.inl hempty, hfresh.dataSize, ?_, ?_⟩
    · rw [hfresh.dataSize, hfresh.dataCapacity]
      decide
    · rw [hfresh.dataCapacity]
      exact hbound
  case ordered => exact ⟨[], [], rfl, .nothing, by simp⟩
  case known => exact Or.inl hfresh.status
  case waiting => exact fun _ => rfl
  case unsent => exact fun _ => ⟨.nothing, hcompleted, fun _ => rfl⟩

/-- A located result is what the script gets. -/
theorem Located.response {offset size : Nat} (h : Located received c offset size)
    (hholds : Holds c received) : c.response = .ok ((received.drop offset).take size) := by
  have hle := h.le
  rcases hholds.exists_data with ⟨data, hsome, hdata, -⟩
  have hlength : offset + size ≤ data.length := by
    rcases hdata with rfl | rfl
    · exact hle
    · rw [List.length_append]
      omega
  have hslice : (data.drop offset).take size = (received.drop offset).take size := by
    rcases hdata with rfl | rfl
    · rfl
    · rw [List.drop_append_of_le_length (by omega), List.take_append_of_le_length]
      rw [List.length_drop]
      omega
  simp only [Client.response, h.offset_eq, hsome, h.size_eq, Option.getD_some, Int.toNat_natCast]
  rw [if_pos (Int.natCast_nonneg offset), readSlice_of_le hlength, hslice]

/-- What a completed request shows is the whole response. -/
theorem Answered.result (h : Answered c received) (hholds : Holds c received)
    (hstatus : c.status = statusCompleted) (hlt : received.length < 2 ^ 31) :
    ∃ result, c.response = .ok result ∧ Result received result := by
  rcases h hstatus hlt with ⟨offset, hlocated⟩
  have hle := hlocated.le
  rcases hlocated.blank with ⟨i, hfind, hi⟩
  refine ⟨received.drop offset, ?_, received.take offset, (List.take_append_drop _ _).symm, i,
    hfind, ?_⟩
  · rw [hlocated.response hholds, List.take_of_length_le]
    rw [List.length_drop]
  · rw [List.length_take]
    omega

/-! ## The answer -/

/-- The loop takes chunks in, and shows all of them when it comes to the end of the stream. -/
theorem Holds.receive (h : Holds c received) (hanswered : Answered c received)
    {arrivals : List Arrival}
    (hend : c.status = statusCompleted → ∀ a ∈ arrivals, a = .closed ∨ a = .error)
    {taken : List Event} (hrun : receive heap c arrivals = .ok (c', taken)) :
    Answered c' (received ++ receivedBytes taken) := by
  induction arrivals generalizing c received taken with
  | nil =>
      cases hrun
      simpa [receivedBytes] using hanswered
  | cons arrival arrivals ih =>
      cases arrival with
      | error =>
          cases hrun
          exact fun hstatus => absurd hstatus (by decide : statusFailed ≠ statusCompleted)
      | closed =>
          rcases Fallible.bind_eq_ok.mp hrun with ⟨c₁, hfinish, hrun⟩
          cases hrun
          rw [show receivedBytes [] = [] from rfl, List.append_nil]
          exact (h.finish hfinish).2.2.2
      | chunk bytes hne hfits =>
          -- bytes come in, so the request is not completed
          have hpending : c.status ≠ statusCompleted := by
            intro hstatus
            rcases hend hstatus _ List.mem_cons_self with hclosed | herror
            · cases hclosed
            · cases herror
          rcases Fallible.bind_eq_ok.mp hrun with ⟨c₁, happend, hrun⟩
          rcases Fallible.bind_eq_ok.mp hrun with ⟨⟨c₂, taken₂⟩, hrest, hrun⟩
          cases hrun
          rcases h.appendChunk hne with ⟨herror, -⟩ | ⟨c₁', hok, hholds, hframe⟩
          · rw [happend] at herror
            cases herror
          rw [happend] at hok
          cases hok
          have hpending₁ : c₁.status ≠ statusCompleted := by
            rw [hframe]
            exact hpending
          have hrest := ih hholds (fun hstatus => absurd hstatus hpending₁)
            (fun hstatus => absurd hstatus hpending₁) hrest
          rwa [List.append_assoc] at hrest

/-- Sending completes nothing. -/
theorem sendRequest_status {p : Poll target} {sends : List Event}
    (hrun : sendRequest c p = .ok (c', sends)) : c'.status = statusFailed ∨ c'.status = c.status := by
  rcases Fallible.bind_eq_ok.mp hrun with ⟨text, -, hrun⟩
  rcases Fallible.bind_eq_ok.mp hrun with ⟨head, -, hrun⟩
  cases head with
  | none =>
      cases hrun
      exact Or.inl rfl
  | some head =>
      simp only at hrun
      split_ifs at hrun
      · rcases Fallible.bind_eq_ok.mp hrun with ⟨body, -, hrun⟩
        cases body with
        | none =>
            cases hrun
            exact Or.inl rfl
        | some body =>
            cases hrun
            exact Or.inr rfl
      · cases hrun
        exact Or.inr rfl

/-- A poll keeps the answer, or gets it. -/
theorem Answered.poll (h : Answered c (receivedBytes events))
    (hprogress : Progress start head events c) {p : Poll target} (hend : c.AtEnd p)
    {happened : List Event} (hrun : c.httpProcess p = .ok (c', happened)) :
    Answered c' (receivedBytes (events ++ happened)) := by
  rw [Client.httpProcess] at hrun
  by_cases hfailed : c.status = statusFailed
  · rw [if_pos hfailed] at hrun
    cases hrun
    simpa using h
  rw [if_neg hfailed] at hrun
  -- what the first part of the poll leaves
  generalize hconnected : (if c.connectPending ∧ p.connected then
    { c with connectPending := false } else c) = c₁ at hrun
  have hsame : Answered c₁ (receivedBytes events) ∧ Holds c₁ (receivedBytes events) ∧
      c₁.status = c.status ∧ c₁.requestSent = c.requestSent := by
    have hholds := hprogress.holds
    subst hconnected
    split_ifs
    · refine ⟨fun hstatus hlt => ?_,
        ⟨hholds.data, hholds.size, hholds.room, hholds.bound⟩, rfl, rfl⟩
      rcases h hstatus hlt with ⟨offset, hlocated⟩
      exact ⟨offset, hlocated.offset_eq, hlocated.size_eq, hlocated.le, hlocated.blank⟩
    · exact ⟨h, hholds, rfl, rfl⟩
  rcases hsame with ⟨hanswered, hholds, hstatus, hsentEq⟩
  simp only at hrun
  split_ifs at hrun with hpending hsent
  · cases hrun
    simpa using hanswered
  · rw [receivedBytes_append]
    exact hholds.receive hanswered (by rw [hstatus]; exact hend) hrun
  · -- what has not been sent is not completed
    have hunsent : c.requestSent = false := by
      rw [← hsentEq]
      simpa using hsent
    intro hcompleted
    rcases sendRequest_status hrun with hnow | hnow
    · rw [hnow] at hcompleted
      cases hcompleted
    · exact absurd (hstatus.symm.trans (hnow.symm.trans hcompleted)) (hprogress.unsent hunsent).2.1

/-- A request that failed is polled in vain. -/
theorem runFrom_failed (h : c.status = statusFailed) (ps : List (Poll target)) :
    (Client.machine start).runFrom c ps = .ok (c, ps.map fun _ => []) := by
  induction ps with
  | nil => rfl
  | cons p ps ih =>
      have hstep : (Client.machine start).step c p = .ok (c, []) := by
        simp [Client.machine, Client.httpProcess, h]
      rw [Machine.runFrom_cons ps hstep, ih]
      rfl

/-- Whatever the network does, a request that was started goes out once, and before anything is
taken in.  The block holds what was received, in the order in which it was, and always has room for a
NUL.  When the request is completed and nothing comes behind the end of the stream, the script gets
all that is behind the first blank line; once it has failed, nothing happens any more. -/
theorem stream_progress (heap : Heap target) (garbage : Garbage)
    (connect : CString → CString → Bool) (sent : Sent) (start : Client target)
    (hstart : httpConnect heap garbage connect sent = .ok (some start)) (hdata : start.data ≠ none)
    (ps : List (Poll target)) (c : Client target) (happened : List (List Event))
    (hrun : (Client.machine start).run ps = .ok (c, happened)) :
    (∃ u : UrlParts, sent.url.bytes = u.text ∧
        Progress start (sent.text u.resource u.address u.portText) happened.flatten c) ∧
      (c.status = statusCompleted → (receivedBytes happened.flatten).length < 2 ^ 31 →
        (Client.machine start).Along Client.AtEnd start ps →
        ∃ result, c.response = .ok result ∧ Result (receivedBytes happened.flatten) result) ∧
      (c.status = statusFailed → ∀ qs : List (Poll target),
        (Client.machine start).runFrom c qs = .ok (c, qs.map fun _ => [])) := by
  rcases fresh_of_connect hstart with ⟨u, hurl, hfresh, -, hhead⟩
  have hfirst := progress_of_fresh (sent.text u.resource u.address u.portText) hfresh hdata
  have hpoll : ∀ (tr : List (List Event)) (s : Client target) (p : Poll target)
      (s' : Client target) (o : List Event),
      Progress start (sent.text u.resource u.address u.portText) tr.flatten s →
        (Client.machine start).step s p = .ok (s', o) →
          Progress start (sent.text u.resource u.address u.portText) (tr ++ [o]).flatten s' := by
    intro tr s p s' o hs hstep
    simpa using hs.poll hhead hstep
  have hprogress : Progress start (sent.text u.resource u.address u.portText) happened.flatten c :=
    Machine.runFrom_traces hpoll ps [] start c happened hfirst hrun
  refine ⟨⟨u, hurl, hprogress⟩, fun hstatus hlt hend => ?_,
    fun hstatus qs => runFrom_failed hstatus qs⟩
  -- the answer is kept together with the progress
  have hnone : Answered start [] := by
    intro hcompleted
    rw [hfresh.status] at hcompleted
    cases hcompleted
  have hanswered := (Machine.runFrom_traces_along
    (I := fun tr s => Progress start (sent.text u.resource u.address u.portText) tr.flatten s ∧
      Answered s (receivedBytes tr.flatten)) (G := Client.AtEnd)
    (fun tr s p s' o hs hG hstep => by
      refine ⟨hpoll tr s p s' o hs.1 hstep, ?_⟩
      have hanswer := hs.2.poll hs.1 hG hstep
      simpa using hanswer)
    ps [] start c happened ⟨hfirst, hnone⟩ hend hrun).2
  exact hanswered.result hprogress.holds hstatus hlt

/-- A request that has to wait for its connection, and an answer that is cut in its blank line and
read twice. -/
def helloPolls : List (Poll .aarch64) :=
  [⟨false, none, none, [], Heap.zeros .aarch64⟩,
    ⟨true, some 4096, none, [], Heap.zeros .aarch64⟩,
    ⟨true, none, none,
      [.chunk (CString.ascii "HTTP/1.0 200 OK\r\nContent-Type: a\r\n\r") (by decide) (by decide)],
      Heap.zeros .aarch64⟩,
    ⟨true, none, none, [], Heap.zeros .aarch64⟩,
    ⟨true, none, none,
      [.chunk (CString.ascii "\nhe") (by decide) (by decide),
        .chunk (CString.ascii "llo") (by decide) (by decide), .closed], Heap.zeros .aarch64⟩,
    ⟨true, none, none, [.closed], Heap.zeros .aarch64⟩]

theorem stream_progress_hello : ∃ (start c : Client .aarch64) (happened : List (List Event)),
    (Client.machine start).run helloPolls = .ok (c, happened) ∧ c.status = statusCompleted ∧
      c.response = .ok (CString.ascii "hello") ∧
      ∃ result, c.response = .ok result ∧ Result (receivedBytes happened.flatten) result := by
  rcases Fallible.exists_ok_of_any
    (x := httpConnect (Heap.zeros .aarch64) Garbage.zeros (fun _ _ => true)
      (.get (CString.literal "http://a/")))
    (p := fun start => start.any fun start => start.data.isSome &&
      ((Client.machine start).run helloPolls).toOption.any
        fun (r : Client .aarch64 × List (List Event)) => decide (r.1.status = statusCompleted ∧
          (receivedBytes r.2.flatten).length < 2 ^ 31 ∧
          r.1.response = .ok (CString.ascii "hello") ∧
          (Client.machine start).Along Client.AtEnd start helloPolls))
    (by decide +kernel) with ⟨start, hstart, h⟩
  cases start with
  | none => cases h
  | some start =>
      rw [Option.any_some, Bool.and_eq_true] at h
      rcases Fallible.exists_ok_of_any h.2 with ⟨⟨c, happened⟩, hrun, hc⟩
      rcases of_decide_eq_true hc with ⟨hstatus, hlt, hresponse, hend⟩
      have hprogress := stream_progress _ _ _ _ start hstart (Option.isSome_iff_ne_none.mp h.1)
        helloPolls c happened hrun
      exact ⟨start, c, happened, hrun, hstatus, hresponse, hprogress.2.1 hstatus hlt hend⟩

end Http
end KnShim
