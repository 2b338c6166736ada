import KnShim.Http.Stream

/-!
# Http.Delivery — the answer depends on the bytes alone

A response arrives in chunks, at any number of polls, and each poll may find any number of them.
`delivery_correct` says that the polls together compute one function of all the bytes that were
delivered, faults included: `readResponse` on the whole.
-/

namespace KnShim
namespace Http

open Lib Search

variable {target : Target}

/-! ## What is seen of a request -/

/-- What the script can ask for. -/
structure Outcome where
  status : Nat
  statusCode : BitVec 32
  reasonPhrase : CString
  contentType : CString
  response : Bytes
  deriving DecidableEq

/-- What a request shows. -/
def Client.outcome (c : Client target) : Fallible Outcome := do
  let reasonPhrase ← CString.read c.reasonPhrase
  let contentType ← CString.read c.contentType
  let response ← c.response
  return ⟨c.status, c.statusCode, reasonPhrase, contentType, response⟩

/-- What a request shows that has received `received`. -/
def Reading.outcome (received : Bytes) : Reading → Outcome
  | .nothing => ⟨statusFailed, 0, CString.empty, CString.empty, []⟩
  | .code statusCode => ⟨statusFailed, statusCode, CString.empty, CString.empty, []⟩
  | .response headerSize statusCode reason contentType =>
      ⟨if statusCode.toInt < 300 then statusCompleted else statusFailed, statusCode,
        CString.upToNul (reason.take 1023),
        CString.upToNul ((contentType.map (List.take 255)).getD []),
        received.drop headerSize.toNat⟩

/-! ## Deliveries -/

/-- The bytes come in chunks, and then the connection is closed and stays closed. -/
inductive Delivers : Bytes → List Arrival → Prop where
  | closed (n : Nat) : Delivers [] (List.replicate (n + 1) .closed)
  | chunk {rest : Bytes} {arrivals : List Arrival} (bytes : Bytes) (nonempty : bytes ≠ [])
      (fits : bytes.length ≤ 4096) (h : Delivers rest arrivals) :
      Delivers (bytes ++ rest) (.chunk bytes nonempty fits :: arrivals)

/-- All blocks of at most `n` bytes are there. -/
def Heap.Gives (heap : Heap target) (n : Nat) : Prop := ∀ m ≤ n, (heap.malloc m).isSome

/-- The polls of a request whose answer is `bytes`: the socket is not connected for a while, then the
request is taken, and then the answer is delivered. -/
structure Exchange (target : Target) (bytes : Bytes) where
  waiting : List (Poll target)
  sending : Poll target
  receiving : List (Poll target)
  unconnected : ∀ p ∈ waiting, p.connected = false
  connected : sending.connected = true
  headTaken : sending.sendHeader ≠ none
  dataTaken : sending.sendData ≠ none
  delivers : Delivers bytes (receiving.flatMap Poll.arrivals)
  memory : ∀ p ∈ receiving, p.heap.Gives (2 * (bytes.length + 1))

/-- The bytes from `start` to `stop`, as a chunk. -/
def Arrival.piece (bytes : Bytes) (start stop : Nat) (hlt : start < stop)
    (hstop : stop ≤ bytes.length) (hfits : stop - start ≤ 4096) : Arrival :=
  .chunk ((bytes.drop start).take (stop - start))
    (by
      rw [← List.length_pos_iff, List.length_take, List.length_drop]
      omega)
    (by
      rw [List.length_take]
      omega)

theorem Delivers.piece {bytes : Bytes} {start stop : Nat} (hlt : start < stop)
    (hstop : stop ≤ bytes.length) (hfits : stop - start ≤ 4096) {arrivals : List Arrival}
    (h : Delivers (bytes.drop stop) arrivals) :
    Delivers (bytes.drop start) (Arrival.piece bytes start stop hlt hstop hfits :: arrivals) := by
  have hsplit : (bytes.drop start).take (stop - start) ++ bytes.drop stop = bytes.drop start := by
    have hdrop : bytes.drop stop = (bytes.drop start).drop (stop - start) := by
      rw [List.drop_drop, Nat.add_sub_cancel' hlt.le]
    rw [hdrop, List.take_append_drop]
  rw [← hsplit]
  exact Delivers.chunk _ _ _ h

/-- The answer comes in three chunks over three polls; the request is polled in between, and before
and after. -/
def Exchange.inPieces (bytes : Bytes) (first second : Nat) (hfirst : 0 < first)
    (hsecond : first < second) (hlast : second < bytes.length) (hfits : bytes.length ≤ 4096) :
    Exchange .aarch64 bytes where
  waiting := [⟨false, none, none, [], Heap.zeros .aarch64⟩,
    ⟨false, none, none, [], Heap.zeros .aarch64⟩]
  sending := ⟨true, some 4096, some 4096, [], Heap.zeros .aarch64⟩
  receiving :=
    [⟨true, none, none, [], Heap.zeros .aarch64⟩,
      ⟨true, none, none, [.piece bytes 0 first hfirst (by omega) (by omega)],
        Heap.zeros .aarch64⟩,
      ⟨true, none, none, [], Heap.zeros .aarch64⟩,
      ⟨true, none, none, [.piece bytes first second hsecond (by omega) (by omega)],
        Heap.zeros .aarch64⟩,
      ⟨true, none, none, [.piece bytes second bytes.length hlast (by omega) (by omega), .closed],
        Heap.zeros .aarch64⟩,
      ⟨true, none, none, [.closed], Heap.zeros .aarch64⟩]
  unconnected := by simp
  connected := rfl
  headTaken := by simp
  dataTaken := by simp
  delivers := by
    have hclosed : Delivers (bytes.drop bytes.length) [.closed, .closed] := by
      rw [List.drop_length]
      exact Delivers.closed 1
    exact ((hclosed.piece hlast _ _).piece hsecond _ _).piece hfirst _ _
  memory := by
    have hgives : (Heap.zeros .aarch64).Gives (2 * (bytes.length + 1)) := by
      intro m hm
      have hbound : 2 * 4097 ≤ Target.aarch64.ptrdiffMax := by decide
      have hle : m ≤ Target.aarch64.ptrdiffMax := by omega
      simp [Heap.zeros, hle]
    intro p hp
    simp only [List.mem_cons, List.not_mem_nil, or_false] at hp
    rcases hp with rfl | rfl | rfl | rfl | rfl | rfl <;> exact hgives

def Exchange.polls {bytes : Bytes} (e : Exchange target bytes) : List (Poll target) :=
  e.waiting ++ e.sending :: e.receiving

/-! ## Taking the chunks -/

variable {c c' : Client target} {received bytes : Bytes} {heap : Heap target}

/-- A request that has been sent and whose answer has not come to its end. -/
structure Receiving (c : Client target) (received : Bytes) : Prop where
  holds : Holds c received
  data : c.data = some received
  status : c.status = statusPending
  statusCode : c.statusCode = 0
  responseData : c.responseData = none
  connected : c.connectPending = false
  sent : c.requestSent = true
  reasonPhrase : CString.empty.Starts c.reasonPhrase ∧ c.reasonPhrase.length = 1024
  contentType : CString.empty.Starts c.contentType ∧ c.contentType.length = 256

/-- A request whose answer has been read. -/
structure Finished (c : Client target) (received : Bytes) (reading : Reading) : Prop where
  holds : Holds c received
  read : readResponse target received = .ok reading
  outcome : c.outcome = .ok (reading.outcome received)
  connected : c.connectPending = false
  sent : c.requestSent = true
  status : c.status = statusFailed ∨ c.status = statusCompleted
  reasonPhrase : c.reasonPhrase.length = 1024
  contentType : c.contentType.length = 256
  untyped : ∀ headerSize statusCode reason,
    reading = .response headerSize statusCode reason none → CString.empty.Starts c.contentType

/-- A chunk is taken while memory lasts, and leaves everything but the data as it is. -/
theorem Receiving.appendChunk (heap : Heap target) (h : Receiving c received) (hne : bytes ≠ [])
    (hheap : heap.Gives (2 * (received.length + bytes.length + 1))) :
    ∃ c', appendChunk heap c bytes = .ok c' ∧ Receiving c' (received ++ bytes) := by
  rcases h.holds.appendChunk hne with ⟨-, n, hn, hnone⟩ | ⟨c', hrun, hholds, hframe⟩
  · have hgives := hheap n hn
    rw [hnone] at hgives
    cases hgives
  · refine ⟨c', hrun, ?_⟩
    constructor
    case holds => exact hholds
    case data => rw [hframe]
    all_goals rw [hframe]
    case status => exact h.status
    case statusCode => exact h.statusCode
    case responseData => exact h.responseData
    case connected => exact h.connected
    case sent => exact h.sent
    case reasonPhrase => exact h.reasonPhrase
    case contentType => exact h.contentType

/-! ## Reading the answer -/

/-- What the array holds is the text, cut off. -/
theorem read_copyText {array text : Bytes} (hpos : 0 < array.length) (hnul : (0 : UInt8) ∉ text) :
    CString.read (copyText array text) = .ok (CString.upToNul (text.take (array.length - 1))) ∧
      (copyText array text).length = array.length := by
  constructor
  · have htake : (0 : UInt8) ∉ text.take (array.length - 1) :=
      fun h => hnul (List.mem_of_mem_take h)
    have htext := CString.upToNul_bytes ⟨_, htake⟩
    exact CString.read_of_starts ⟨_, by rw [htext]; rfl⟩
  · simp only [copyText, List.length_append, List.length_cons, List.length_drop, List.length_take]
    omega

/-- What is written when a response has been read, for the first time or again. -/
theorem finish_writes (hholds : Holds c received) {headerSize : Int} {statusCode : BitVec 32}
    {reason : Bytes} {contentType : Option Bytes}
    (hread : readResponse target received =
      .ok (.response headerSize statusCode reason contentType)) :
    ∃ c', finish c = .ok c' ∧
      c'.status = (if statusCode.toInt < 300 then statusCompleted else statusFailed) ∧
      c'.statusCode = statusCode ∧ c'.reasonPhrase = copyText c.reasonPhrase reason ∧
      c'.contentType = (contentType.map (copyText c.contentType)).getD c.contentType ∧
      c'.responseData = some headerSize ∧
      c'.responseSize = BitVec.ofInt target.wordBits (c.dataSize - headerSize) := by
  rcases hholds.exists_data with ⟨data, hsome, hdata, -⟩
  have hread' : readResponse target data =
      .ok (.response headerSize statusCode reason contentType) := by
    rcases hdata with rfl | rfl
    · exact hread
    · exact readResponse_append_zero hread
  simp only [finish, hsome, hread', Fallible.ok_bind, if_pos hholds.room]
  exact ⟨_, rfl, rfl, rfl, rfl, rfl, rfl, rfl⟩

/-- The content type is copied, or what is there is still the empty string. -/
theorem read_contentType {array copied : Bytes} {contentType : Option Bytes}
    (hcopied : copied = (contentType.map (copyText array)).getD array)
    (hlen : array.length = 256)
    (hnul : ∀ text, contentType = some text → (0 : UInt8) ∉ text)
    (huntyped : contentType = none → CString.empty.Starts array) :
    CString.read copied = .ok (CString.upToNul ((contentType.map (List.take 255)).getD [])) ∧
      copied.length = 256 ∧ (contentType = none → CString.empty.Starts copied) := by
  rw [hcopied]
  cases contentType with
  | none => exact ⟨CString.read_of_starts (huntyped rfl), hlen, huntyped⟩
  | some text =>
      have hpos : 0 < array.length := by omega
      rcases read_copyText hpos (hnul text rfl) with ⟨hread, htextLen⟩
      rw [hlen] at hread htextLen
      exact ⟨hread, htextLen, fun h => by cases h⟩

/-- Reading a response again says the same. -/
theorem finish_response (hholds : Holds c received) {headerSize : Int} {statusCode : BitVec 32}
    {reason : Bytes} {contentType : Option Bytes} (hlt : received.length < 2 ^ 31)
    (hread : readResponse target received = .ok (.response headerSize statusCode reason contentType))
    (hconnected : c.connectPending = false) (hsent : c.requestSent = true)
    (hreason : c.reasonPhrase.length = 1024) (htype : c.contentType.length = 256)
    (huntyped : contentType = none → CString.empty.Starts c.contentType) :
    ∃ c', finish c = .ok c' ∧
      Finished c' received (.response headerSize statusCode reason contentType) := by
  rcases response_of_readResponse hread with ⟨⟨i, hblank, hsize⟩, hnulReason, hnulType⟩
  rcases finish_writes hholds hread with
    ⟨c', hrun, hstatus, hcode, hreason', htype', hoffset, hresponse⟩
  rcases hholds.finish hrun with ⟨hholds', hended, hframe, -⟩
  have hlocated : Located received c' (i + 4) (received.length - (i + 4)) := by
    have hdataSize : c'.dataSize = c.dataSize := by rw [hframe]
    refine located_of_blank hholds'.size hblank hlt (hoffset.trans (congrArg some hsize)) ?_
    rw [hresponse, hdataSize, hsize]
  have hreasonPos : 0 < c.reasonPhrase.length := by omega
  rcases read_copyText hreasonPos hnulReason with ⟨hreadReason, hreasonLen⟩
  rw [← hreason'] at hreadReason hreasonLen
  rcases read_contentType htype' htype hnulType huntyped with ⟨hreadType, htypeLen, huntyped'⟩
  have heq : headerSize = ((i + 4 : Nat) : Int) := by
    have hsome := hlocated.offset_eq
    rw [hoffset] at hsome
    exact Option.some.inj hsome
  have hresult : c'.response = .ok (received.drop headerSize.toNat) := by
    rw [hlocated.response hholds', heq, Int.toNat_natCast]
    congr 1
    rw [List.take_of_length_le]
    rw [List.length_drop]
  refine ⟨c', hrun, ?_⟩
  constructor
  case holds => exact hholds'
  case read => exact hread
  case outcome =>
    simp only [Client.outcome, hreadReason, hreadType, hresult, Fallible.ok_bind, Fallible.pure_eq,
      hstatus, hcode, hreason, Reading.outcome]
  case connected =>
    rw [hframe]
    exact hconnected
  case sent =>
    rw [hframe]
    exact hsent
  case status => exact hended
  case reasonPhrase => exact hreasonLen.trans hreason
  case contentType => exact htypeLen
  case untyped =>
    rintro _ _ _ ⟨⟩
    exact huntyped' rfl

theorem status_of_outcome {o : Outcome} (h : c.outcome = .ok o) : o.status = c.status := by
  rcases Fallible.bind_eq_ok.mp h with ⟨reason, -, h⟩
  rcases Fallible.bind_eq_ok.mp h with ⟨type, -, h⟩
  rcases Fallible.bind_eq_ok.mp h with ⟨response, -, h⟩
  cases h
  rfl

/-- The data has no response in it. -/
theorem Receiving.failed (h : Receiving c received) {reading : Reading} (statusCode : BitVec 32)
    (hread : readResponse target received = .ok reading)
    (hreading : reading.outcome received =
      ⟨statusFailed, statusCode, CString.empty, CString.empty, []⟩) :
    Finished { c with status := statusFailed, statusCode := statusCode } received reading where
  holds := ⟨h.holds.data, h.holds.size, h.holds.room, h.holds.bound⟩
  read := hread
  outcome := by
    simp [Client.outcome, Client.response, CString.read_of_starts h.reasonPhrase.1,
      CString.read_of_starts h.contentType.1, h.responseData, hreading]
  connected := h.connected
  sent := h.sent
  status := Or.inl rfl
  reasonPhrase := h.reasonPhrase.2
  contentType := h.contentType.2
  untyped := fun _ _ _ _ => h.contentType.1

/-- The answer is read when the connection is closed. -/
theorem Receiving.finish (h : Receiving c received) (hlt : received.length < 2 ^ 31) :
    match readResponse target received with
    | .error e => finish c = .error e
    | .ok reading => ∃ c', finish c = .ok c' ∧ Finished c' received reading := by
  cases hread : readResponse target received with
  | error e => simp [Http.finish, h.data, hread]
  | ok reading =>
      cases reading with
      | nothing =>
          have hfailed := h.failed c.statusCode hread (by rw [h.statusCode]; rfl)
          exact ⟨_, by simp [Http.finish, h.data, hread], hfailed⟩
      | code statusCode =>
          exact ⟨_, by simp [Http.finish, h.data, hread], h.failed statusCode hread rfl⟩
      | response headerSize statusCode reason contentType =>
          exact finish_response h.holds hlt hread h.connected h.sent h.reasonPhrase.2
            h.contentType.2 (fun _ => h.contentType.1)

/-- A poll after the end reads the same answer, or does nothing. -/
theorem Finished.poll {reading : Reading} (h : Finished c received reading)
    (hlt : received.length < 2 ^ 31) {p : Poll target} (hclosed : ∀ a ∈ p.arrivals, a = .closed) :
    ∃ c' happened, c.httpProcess p = .ok (c', happened) ∧ Finished c' received reading := by
  by_cases hfailed : c.status = statusFailed
  · exact ⟨c, [], by simp [Client.httpProcess, hfailed], h⟩
  · have hstep : c.httpProcess p = receive p.heap c p.arrivals := by
      simp [Client.httpProcess, hfailed, h.connected, h.sent]
    have hcompleted : (reading.outcome received).status = statusCompleted :=
      (status_of_outcome h.outcome).trans (h.status.resolve_left hfailed)
    have hne : statusFailed ≠ statusCompleted := by decide
    rw [hstep]
    cases harrivals : p.arrivals with
    | nil => exact ⟨c, [], rfl, h⟩
    | cons a rest =>
        have ha : a = .closed := hclosed a (by simp [harrivals])
        subst ha
        cases reading with
        | nothing => exact absurd hcompleted hne
        | code statusCode => exact absurd hcompleted hne
        | response headerSize statusCode reason contentType =>
            have huntyped : contentType = none → CString.empty.Starts c.contentType := by
              rintro rfl
              exact h.untyped _ _ _ rfl
            rcases finish_response h.holds hlt h.read h.connected h.sent h.reasonPhrase
              h.contentType huntyped with ⟨c', hfinish, hfinished⟩
            exact ⟨c', [], by simp [receive, hfinish], hfinished⟩

/-! ## The whole answer -/

/-- The end of a connection ends the poll. -/
theorem Receiving.receive_closed {arrivals : List Arrival} (h : Receiving c received)
    (hlt : received.length < 2 ^ 31) :
    match readResponse target received with
    | .error e => Http.receive heap c (.closed :: arrivals) = .error e
    | .ok reading => ∃ c' happened,
        Http.receive heap c (.closed :: arrivals) = .ok (c', happened) ∧
          Finished c' received reading := by
  have hfinish := h.finish hlt
  cases hread : readResponse target received with
  | error e =>
      rw [hread] at hfinish
      simp only at hfinish ⊢
      simp [Http.receive, hfinish]
  | ok reading =>
      rw [hread] at hfinish
      rcases hfinish with ⟨c', hfinish, hfinished⟩
      exact ⟨c', [], by simp [Http.receive, hfinish], hfinished⟩

/-- What one poll takes of a delivery: some of the chunks, or all of them and the end. -/
theorem Receiving.receive {arrivals rest whole : List Arrival} (h : Receiving c received)
    (hwhole : whole = arrivals ++ rest) (hdelivers : Delivers bytes whole)
    (hheap : heap.Gives (2 * (received.length + bytes.length + 1)))
    (hlt : (received ++ bytes).length < 2 ^ 31) :
    (∃ c' happened bytes₁ bytes₂, receive heap c arrivals = .ok (c', happened) ∧
        bytes = bytes₁ ++ bytes₂ ∧ Receiving c' (received ++ bytes₁) ∧ Delivers bytes₂ rest) ∨
      (∀ a ∈ rest, a = .closed) ∧
        match readResponse target (received ++ bytes) with
        | .error e => Http.receive heap c arrivals = .error e
        | .ok reading => ∃ c' happened, Http.receive heap c arrivals = .ok (c', happened) ∧
            Finished c' (received ++ bytes) reading := by
  -- induction on the delivery, of which the poll takes a first part
  induction hdelivers generalizing c received arrivals with
  | closed n =>
      cases arrivals with
      | nil =>
          rw [List.nil_append] at hwhole
          exact Or.inl ⟨c, [], [], [], rfl, rfl, by simpa using h, hwhole ▸ .closed n⟩
      | cons a arrivals =>
          have hclosed : ∀ b ∈ a :: (arrivals ++ rest), b = .closed := by
            intro b hb
            rw [← List.cons_append, ← hwhole] at hb
            exact List.eq_of_mem_replicate hb
          have ha : a = .closed := hclosed a List.mem_cons_self
          subst ha
          refine Or.inr ⟨fun b hb => hclosed b (by simp [hb]), ?_⟩
          rw [List.append_nil] at hlt ⊢
          exact h.receive_closed hlt
  | @chunk later laterArrivals first nonempty fits hlater ih =>
      cases arrivals with
      | nil =>
          rw [List.nil_append] at hwhole
          exact Or.inl ⟨c, [], [], first ++ later, rfl, rfl, by simpa using h,
            hwhole ▸ .chunk first nonempty fits hlater⟩
      | cons a arrivals =>
          rw [List.cons_append, List.cons.injEq] at hwhole
          rcases hwhole with ⟨rfl, hwhole⟩
          rw [List.length_append] at hheap
          rcases h.appendChunk heap nonempty (fun m hm => hheap m (by omega)) with
            ⟨c₁, happend, hreceiving⟩
          have hheap₁ : heap.Gives (2 * ((received ++ first).length + later.length + 1)) := by
            intro m hm
            rw [List.length_append] at hm
            exact hheap m (by omega)
          rw [← List.append_assoc] at hlt ⊢
          rcases ih hreceiving hwhole hheap₁ hlt with hsome | ⟨hclosed, hend⟩
          · rcases hsome with ⟨c', happened, bytes₁, bytes₂, hrun, rfl, hreceiving', hrest⟩
            refine Or.inl ⟨c', .received first :: happened, first ++ bytes₁, bytes₂, ?_, ?_, ?_,
              hrest⟩
            · simp [Http.receive, happend, hrun]
            · rw [List.append_assoc]
            · rw [← List.append_assoc]
              exact hreceiving'
          · refine Or.inr ⟨hclosed, ?_⟩
            cases hread : readResponse target (received ++ first ++ later) with
            | error e =>
                rw [hread] at hend
                simp only at hend ⊢
                simp [Http.receive, happend, hend]
            | ok reading =>
                rw [hread] at hend
                rcases hend with ⟨c', happened, hrun, hfinished⟩
                exact ⟨c', .received first :: happened, by simp [Http.receive, happend, hrun],
                  hfinished⟩

/-- The polls after the end. -/
theorem Finished.runFrom (start : Client target) {reading : Reading}
    (h : Finished c received reading) (hlt : received.length < 2 ^ 31) {ps : List (Poll target)}
    (hclosed : ∀ p ∈ ps, ∀ a ∈ p.arrivals, a = .closed) :
    ∃ t happened, (Client.machine start).runFrom c ps = .ok (t, happened) ∧
      Finished t received reading :=
  Machine.runFrom_total (M := Client.machine start)
    (fun _ _ hs hp => hs.poll hlt hp) ps c h hclosed

/-- The polls that take the answer. -/
theorem Receiving.runFrom (start : Client target) {ps : List (Poll target)}
    (h : Receiving c received)
    (hdelivers : Delivers bytes (ps.flatMap Poll.arrivals))
    (hheap : ∀ p ∈ ps, p.heap.Gives (2 * (received.length + bytes.length + 1)))
    (hlt : (received ++ bytes).length < 2 ^ 31) :
    match readResponse target (received ++ bytes) with
    | .error e => (Client.machine start).runFrom c ps = .error e
    | .ok reading => ∃ t happened, (Client.machine start).runFrom c ps = .ok (t, happened) ∧
        Finished t (received ++ bytes) reading := by
  induction ps generalizing c received bytes with
  | nil => cases hdelivers
  | cons p ps ih =>
      have hne : statusPending ≠ statusFailed := by decide
      have hstep : (Client.machine start).step c p = Http.receive p.heap c p.arrivals := by
        simp [Client.machine, Client.httpProcess, h.status, hne, h.connected, h.sent]
      have hheap₁ : p.heap.Gives (2 * (received.length + bytes.length + 1)) :=
        hheap p List.mem_cons_self
      rcases h.receive List.flatMap_cons hdelivers hheap₁ hlt with hsome | ⟨hclosed, hend⟩
      · rcases hsome with ⟨c', happened, bytes₁, bytes₂, hrun, rfl, hreceiving, hrest⟩
        have hheap₂ : ∀ q ∈ ps,
            q.heap.Gives (2 * ((received ++ bytes₁).length + bytes₂.length + 1)) := by
          intro q hq m hm
          rw [List.length_append] at hm
          refine hheap q (List.mem_cons_of_mem p hq) m ?_
          rw [List.length_append]
          omega
        rw [← List.append_assoc] at hlt ⊢
        have hnext := ih hreceiving hrest hheap₂ hlt
        rw [Machine.runFrom_cons ps (hstep.trans hrun)]
        cases hread : readResponse target (received ++ bytes₁ ++ bytes₂) with
        | error e =>
            rw [hread] at hnext
            simp only at hnext ⊢
            rw [hnext]
            rfl
        | ok reading =>
            rw [hread] at hnext
            rcases hnext with ⟨t, happened', hrun', hfinished⟩
            exact ⟨t, happened :: happened', by rw [hrun']; rfl, hfinished⟩
      · cases hread : readResponse target (received ++ bytes) with
        | error e =>
            rw [hread] at hend
            simp only at hend ⊢
            simp [Machine.runFrom, hstep, hend]
        | ok reading =>
            rw [hread] at hend
            rcases hend with ⟨c', happened, hrun, hfinished⟩
            have hall : ∀ q ∈ ps, ∀ a ∈ q.arrivals, a = .closed :=
              fun q hq a ha => hclosed a (List.mem_flatMap.mpr ⟨q, hq, ha⟩)
            rcases hfinished.runFrom start hlt hall with ⟨t, happened', hrun', hdone⟩
            refine ⟨t, happened :: happened', ?_, hdone⟩
            rw [Machine.runFrom_cons ps (hstep.trans hrun), hrun']
            rfl

/-! ## The request before it -/

variable {start : Client target}

/-- The polls before the socket is connected. -/
theorem runFrom_waiting (hfresh : start.Fresh) {ps : List (Poll target)}
    (hps : ∀ p ∈ ps, p.connected = false) (qs : List (Poll target)) :
    ∃ happened : List (List Event), (Client.machine start).runFrom start (ps ++ qs) =
      ((Client.machine start).runFrom start qs >>= fun r => .ok (r.1, happened ++ r.2)) := by
  induction ps with
  | nil =>
      refine ⟨[], ?_⟩
      cases hrun : (Client.machine start).runFrom start qs with
      | error e => simp [hrun]
      | ok r => simp [hrun]
  | cons p ps ih =>
      rcases ih (fun q hq => hps q (List.mem_cons_of_mem p hq)) with ⟨happened, hrun⟩
      have hne : statusPending ≠ statusFailed := by decide
      have hstep : (Client.machine start).step start p = .ok (start, []) := by
        simp [Client.machine, Client.httpProcess, hfresh.status, hne, hfresh.connectPending,
          hps p List.mem_cons_self]
      refine ⟨[] :: happened, ?_⟩
      rw [List.cons_append, Machine.runFrom_cons _ hstep, hrun]
      cases (Client.machine start).runFrom start qs with
      | error e => rfl
      | ok r => rfl

/-- An `int` holds the length of what is sent. -/
theorem send_of_lt {text : Bytes} {taken : Option Nat} (h : text.length < 2 ^ 31)
    (htaken : taken ≠ none) : ∃ sent, send text taken = .ok (some sent) := by
  have hnat : (BitVec.ofNat 32 text.length).toNat = text.length := by
    rw [BitVec.toNat_ofNat, Nat.mod_eq_of_lt (by omega)]
  have hint : (BitVec.ofNat 32 text.length).toInt = text.length := by
    rw [BitVec.toInt_eq_toNat_of_lt (by rw [hnat]; omega), hnat]
  rcases Option.ne_none_iff_exists'.mp htaken with ⟨k, rfl⟩
  have hpos : ¬ ((text.length : Int) < 0) := by omega
  exact ⟨_, by simp only [send, hint, if_neg hpos]; rfl⟩

/-- The poll that sends the request. -/
theorem poll_sending (hfresh : start.Fresh) (hdata : start.data ≠ none) {head : CString}
    (hhead : CString.read start.header = .ok head) (hheadLt : head.length < 2 ^ 31)
    (hbodyLt : start.requestData.length < 2 ^ 31) {p : Poll target} (hconnected : p.connected = true)
    (hheadTaken : p.sendHeader ≠ none) (hdataTaken : p.sendData ≠ none) :
    ∃ c happened, (Client.machine start).step start p = .ok (c, happened) ∧ Receiving c [] := by
  have hne : statusPending ≠ statusFailed := by decide
  have hhead' : CString.read ({ start with connectPending := false } : Client target).header =
      .ok head := hhead
  have hstep : (Client.machine start).step start p =
      sendRequest { start with connectPending := false } p := by
    simp [Client.machine, Client.httpProcess, hfresh.status, hne, hfresh.connectPending, hconnected,
      hfresh.requestSent]
  have hholds := (progress_of_fresh head hfresh hdata).holds
  have hreceiving : Receiving { start with connectPending := false, requestSent := true } [] :=
    ⟨⟨hholds.data, hholds.size, hholds.room, hholds.bound⟩, hfresh.data.resolve_left hdata,
      hfresh.status, hfresh.statusCode, hfresh.responseData, rfl, rfl, hfresh.reasonPhrase,
      hfresh.contentType⟩
  rcases send_of_lt hheadLt hheadTaken with ⟨sentHead, hsendHead⟩
  rcases send_of_lt hbodyLt hdataTaken with ⟨sentBody, hsendBody⟩
  rw [hstep]
  simp only [sendRequest, hhead', Fallible.ok_bind, hsendHead, hsendBody]
  split_ifs with hbody
  · exact ⟨_, _, rfl, hreceiving⟩
  · exact ⟨_, _, rfl, hreceiving⟩

/-- The head is not much longer than the URL. -/
theorem text_length_le_url {sent : Sent} {u : UrlParts} (hurl : sent.url.bytes = u.text) :
    (sent.text u.resource u.address u.portText).length < sent.url.length + 66 := by
  have hlt := text_length_lt sent u.resource u.address u.portText
  have hlength : sent.url.length = u.text.length := congrArg List.length hurl
  have hparts : u.resource.length + u.address.length + u.portText.length ≤ u.text.length + 2 := by
    have hdefault : defaultPort.bytes.length = 2 := by decide
    cases hp : u.port with
    | none =>
        simp only [UrlParts.text, UrlParts.rest, UrlParts.portText, hp, List.length_append,
          Option.getD_none, CString.length]
        omega
    | some p =>
        simp only [UrlParts.text, UrlParts.rest, UrlParts.portText, hp, List.length_append,
          List.length_cons, Option.getD_some, CString.length]
        omega
  rw [requestHeaderLen] at hlt
  omega

/-- A whole exchange: the polls go wrong when `readResponse` does on all the bytes, and otherwise
leave what it reads. -/
theorem exchange_run {heap : Heap target} {garbage : Garbage} {connect : CString → CString → Bool}
    {sent : Sent} (hstart : httpConnect heap garbage connect sent = .ok (some start))
    (hdata : start.data ≠ none) (hurl : sent.url.length < 2 ^ 30)
    (hbody : sent.body.length < 2 ^ 31) (hbytes : bytes.length < 2 ^ 31)
    (e : Exchange target bytes) :
    match readResponse target bytes with
    | .error e' => (Client.machine start).run e.polls = .error e'
    | .ok reading => ∃ t happened, (Client.machine start).run e.polls = .ok (t, happened) ∧
        Finished t bytes reading := by
  rcases fresh_of_connect hstart with ⟨u, hu, hfresh, hdataEq, hhead⟩
  have hheadLt := text_length_le_url hu
  rcases poll_sending hfresh hdata hhead (by omega) (hdataEq ▸ hbody) e.connected e.headTaken
    e.dataTaken with ⟨c, happened, hsending, hreceiving⟩
  rcases runFrom_waiting hfresh e.unconnected (e.sending :: e.receiving) with ⟨waited, hwaited⟩
  have hmemory : ∀ p ∈ e.receiving, p.heap.Gives (2 * (([] : Bytes).length + bytes.length + 1)) := by
    simpa using e.memory
  have hrun := hreceiving.runFrom start e.delivers hmemory (by simpa using hbytes)
  have hwhole : (Client.machine start).run e.polls =
      ((Client.machine start).runFrom c e.receiving >>= fun r =>
        .ok (r.1, waited ++ happened :: r.2)) := by
    change (Client.machine start).runFrom start (e.waiting ++ e.sending :: e.receiving) = _
    rw [hwaited, Machine.runFrom_cons _ hsending]
    cases (Client.machine start).runFrom c e.receiving with
    | error e => rfl
    | ok r => rfl
  rw [hwhole]
  rw [List.nil_append] at hrun
  cases hread : readResponse target bytes with
  | error e =>
      rw [hread] at hrun
      simp only at hrun ⊢
      rw [hrun]
      rfl
  | ok reading =>
      rw [hread] at hrun
      rcases hrun with ⟨t, happened', hrun, hfinished⟩
      exact ⟨t, _, by rw [hrun]; rfl, hfinished⟩

/-- However an answer is cut into chunks, and the chunks are spread over polls, and however often the
request is polled before and after: what it shows in the end is what `readResponse` makes of all the
bytes, and the polls go wrong exactly when that does. -/
theorem delivery_correct (heap : Heap target) (garbage : Garbage)
    (connect : CString → CString → Bool) (sent : Sent) (start : Client target)
    (hstart : httpConnect heap garbage connect sent = .ok (some start)) (hdata : start.data ≠ none)
    (hurl : sent.url.length < 2 ^ 30) (hbody : sent.body.length < 2 ^ 31) (bytes : Bytes)
    (hbytes : bytes.length < 2 ^ 31) (e : Exchange target bytes) :
    ((Client.machine start).run e.polls >>= fun r => r.1.outcome) =
      (readResponse target bytes >>= fun reading => .ok (reading.outcome bytes)) := by
  have hrun := exchange_run hstart hdata hurl hbody hbytes e
  cases hread : readResponse target bytes with
  | error e =>
      rw [hread] at hrun
      simp only at hrun
      rw [hrun]
      rfl
  | ok reading =>
      rw [hread] at hrun
      rcases hrun with ⟨t, happened, hrun, hfinished⟩
      rw [hrun]
      exact hfinished.outcome

theorem delivery_correct_hello : ∃ start : Client .aarch64,
    ((Client.machine start).run
      (Exchange.inPieces (CString.ascii "\r\n\r\n  \r\nContent-Type: a\r\n") 3 9 (by decide)
        (by decide) (by decide) (by decide)).polls >>= fun r => r.1.outcome).toOption =
      some ⟨statusCompleted, 0, CString.empty, CString.literal "a",
        CString.ascii "  \r\nContent-Type: a\r\n"⟩ := by
  rcases hello_started with ⟨start, hstart, hdata⟩
  refine ⟨start, ?_⟩
  rw [delivery_correct _ _ _ _ start hstart hdata (by decide) (by decide) _ (by decide)]
  decide +kernel

end Http
end KnShim
