import KnShim.Http.Response

/-!
# Http.Answer — a well-formed answer reaches the script as it was sent

A `Response` is what a server sends: a status line, header lines with a content type among them, a
blank line, and a body of any bytes.  `response_correct` takes it from the server's bytes, in chunks,
over the polls, to what the functions of `http.c` push for the script.
-/

namespace KnShim
namespace Http

open Lib Search

variable {target : Target}

/-! ## Responses -/

/-- An answer of a server. -/
structure Response where
  version : Bytes
  code : Nat
  reason : Bytes
  before : List Bytes
  contentType : Bytes
  after : List Bytes
  body : Bytes
  version_plain : space ∉ version ∧ Lines.cr ∉ version ∧ (0 : UInt8) ∉ version
  code_lt : code < 2 ^ 31
  reason_plain : Lines.cr ∉ reason ∧ (0 : UInt8) ∉ reason
  before_plain : ∀ line ∈ before, Lines.Plain line ∧ (0 : UInt8) ∉ line ∧
    ¬ contentTypeField <:+: line
  contentType_plain : Lines.cr ∉ contentType ∧ (0 : UInt8) ∉ contentType
  after_plain : ∀ line ∈ after, Lines.Plain line ∧ (0 : UInt8) ∉ line

namespace Response

variable (r : Response)

def codeText : Bytes := Decimal.printNat r.code

def statusLine : Bytes := r.version ++ space :: (r.codeText ++ space :: r.reason)

def contentTypeLine : Bytes := contentTypeField ++ r.contentType

def lines : List Bytes := r.statusLine :: (r.before ++ r.contentTypeLine :: r.after)

def head : Bytes := Lines.encode r.lines

/-- What the server sends. -/
def encode : Bytes := r.head ++ r.body

theorem plain_of_mem_lines : ∀ line ∈ r.lines, Lines.Plain line ∧ (0 : UInt8) ∉ line := by
  have hcode : ∀ {b : UInt8}, b.toNat < 48 → b ∉ r.codeText := Decimal.not_mem_printNat
  have hcr : Lines.cr ∉ r.codeText := hcode (by decide)
  have hnul : (0 : UInt8) ∉ r.codeText := hcode (by decide)
  have hspace : Lines.cr ≠ space ∧ (0 : UInt8) ≠ space := by decide
  have hfield : Lines.cr ∉ contentTypeField ∧ (0 : UInt8) ∉ contentTypeField := by decide
  have hversion := r.version_plain
  have hreason := r.reason_plain
  have htype := r.contentType_plain
  rw [lines, List.forall_mem_cons, List.forall_mem_append, List.forall_mem_cons]
  refine ⟨⟨⟨?_, ?_⟩, ?_⟩, fun line h => ?_, ⟨⟨?_, ?_⟩, ?_⟩, r.after_plain⟩
  · simp [statusLine]
  · simp [statusLine, hversion, hreason, hspace, hcr]
  · simp [statusLine, hversion, hreason, hspace, hnul]
  · exact ⟨(r.before_plain line h).1, (r.before_plain line h).2.1⟩
  · have hne : contentTypeField ≠ [] := by decide
    simp [contentTypeLine, hne]
  · simp [contentTypeLine, hfield, htype]
  · simp [contentTypeLine, hfield, htype]

/-- The lines before the content type. -/
def front : Bytes := r.before.flatMap (· ++ Lines.crlf)

/-- What comes behind the content type. -/
def behind : Bytes := Lines.encode r.after

end Response

theorem encode_append (xs ys : List Bytes) :
    Lines.encode (xs ++ ys) = xs.flatMap (· ++ Lines.crlf) ++ Lines.encode ys := by
  induction xs with
  | nil => rfl
  | cons x xs ih => simp [Lines.encode, ih]

namespace Response

variable (r : Response)

theorem head_eq : r.head = r.version ++ space :: (r.codeText ++ space :: (r.reason ++
    (Lines.crlf ++ (r.front ++ (contentTypeField ++ (r.contentType ++
      (Lines.crlf ++ r.behind))))))) := by
  simp [head, lines, Lines.encode, encode_append, statusLine, contentTypeLine, front, behind]

end Response

theorem not_mem_encode {lines : List Bytes} (h : ∀ line ∈ lines, (0 : UInt8) ∉ line) :
    (0 : UInt8) ∉ Lines.encode lines := by
  have hcrlf : (0 : UInt8) ∉ Lines.crlf := by decide
  induction lines with
  | nil => exact hcrlf
  | cons line lines ih =>
      have hline := h line List.mem_cons_self
      have hlines := ih (fun l hl => h l (List.mem_cons_of_mem line hl))
      simp [Lines.encode, hline, hlines, hcrlf]

theorem visible_append {xs : Bytes} (h : (0 : UInt8) ∉ xs) (ys : Bytes) :
    visible (xs ++ ys) = xs ++ visible ys := by
  induction xs with
  | nil => rfl
  | cons x xs ih =>
      have hx : x ≠ 0 := fun h0 => h (h0 ▸ List.mem_cons_self)
      have hxs : (0 : UInt8) ∉ xs := fun h0 => h (List.mem_cons_of_mem x h0)
      have hrest := ih hxs
      simp only [visible] at hrest ⊢
      rw [List.cons_append, CString.upToNul, dif_neg hx, List.cons_append, ← hrest]
      rfl

/-- The content type is found where it begins. -/
theorem find_contentType {before : List Bytes} (h : ∀ line ∈ before, ¬ contentTypeField <:+: line)
    (ys : Bytes) :
    find contentTypeField
        (Lines.lf :: (before.flatMap (· ++ Lines.crlf) ++ (contentTypeField ++ ys))) =
      some (1 + (before.flatMap (· ++ Lines.crlf)).length) := by
  have hfield : contentTypeField = 0x43 :: contentTypeField.tail := by decide
  have hcr : Lines.cr ∉ contentTypeField := by decide
  -- the needle does not begin in an end of line
  have hskip : ∀ {b : UInt8} (zs : Bytes), b ≠ 0x43 →
      find contentTypeField (b :: zs) = (find contentTypeField zs).map (· + 1) := by
    intro b zs hb
    refine find_cons_next (fun hstart => hb ?_)
    rw [hfield] at hstart
    exact (List.cons_prefix_cons.mp hstart).1.symm
  induction before with
  | nil =>
      have hfound : find contentTypeField (contentTypeField ++ ys) = some 0 :=
        find_zero (List.prefix_append _ _)
      rw [hskip _ (by decide), List.flatMap_nil, List.nil_append, hfound]
      rfl
  | cons line before ih =>
      have hrest := ih (fun l hl => h l (List.mem_cons_of_mem line hl))
      have hline := find_append_of_not_inside (Lines.lf :: (before.flatMap (· ++ Lines.crlf) ++
        (contentTypeField ++ ys))) (h line List.mem_cons_self) hcr
      have heq : (line :: before).flatMap (· ++ Lines.crlf) ++ (contentTypeField ++ ys) =
          line ++ Lines.cr :: Lines.lf :: (before.flatMap (· ++ Lines.crlf) ++
            (contentTypeField ++ ys)) := by
        simp [Lines.crlf]
      rw [hskip _ (by decide), heq, hline, hskip _ (by decide), hrest]
      simp [Lines.crlf]
      omega

/-- `atoi` of a printed number. -/
theorem atoi_printNat {n : Nat} (h : n < 2 ^ 31) :
    atoi target (Decimal.printNat n) = BitVec.ofNat 32 n := by
  have hword : 32 ≤ target.wordBits := by cases target <;> decide
  have hpow : 2 ^ 31 ≤ 2 ^ (target.wordBits - 1) := Nat.pow_le_pow_right (by decide) (by omega)
  have hfull : 2 ^ 32 ≤ 2 ^ target.wordBits := Nat.pow_le_pow_right (by decide) hword
  have hkeep : max (-((2 ^ (target.wordBits - 1) : Nat) : Int))
      (min (n : Int) (((2 ^ (target.wordBits - 1) : Nat) : Int) - 1)) = n := by omega
  rw [atoi, Decimal.strtol_printNat, Lua.Number.saturate, hkeep, BitVec.ofInt_natCast]
  apply BitVec.eq_of_toNat_eq
  have hmod : n % 2 ^ target.wordBits = n := Nat.mod_eq_of_lt (by omega)
  rw [BitVec.toNat_setWidth, BitVec.toNat_ofNat, BitVec.toNat_ofNat, hmod]

theorem drop_add_of_drop {α : Type} {text xs ys : List α} {pos : Nat}
    (h : text.drop pos = xs ++ ys) : text.drop (pos + xs.length) = ys := by
  rw [← List.drop_drop, h, List.drop_left]

theorem slice_of_drop {data xs ys : Bytes} {pos : Nat} (hpos : pos ≤ (visible data).length)
    (h : (visible data).drop pos = xs ++ ys) : slice data pos (pos + xs.length) = xs := by
  have hlength := congrArg List.length h
  rw [List.length_drop, List.length_append] at hlength
  rw [slice_visible (by omega), slice, h, Nat.add_sub_cancel_left]
  exact List.take_left

namespace Response

variable (r : Response)

theorem visible_encode : visible r.encode = r.head ++ visible r.body :=
  visible_append (not_mem_encode fun line h => (r.plain_of_mem_lines line h).2) r.body

theorem spaced : Spaced (visible r.encode) r.version r.codeText (r.reason ++ (Lines.crlf ++
    (r.front ++ (contentTypeField ++ (r.contentType ++ (Lines.crlf ++
      (r.behind ++ visible r.body))))))) where
  eq := by
    rw [visible_encode, head_eq]
    simp
  version_plain := r.version_plain.1
  code_plain := Decimal.not_mem_printNat (by decide)

/-- The reason phrase is read, and then the content type. -/
theorem readReason_encode (headerSize : Int) (statusCode : BitVec 32) {pos : Nat}
    (hpos : pos = r.version.length + 1 + r.codeText.length + 1) :
    readReason r.encode headerSize statusCode pos =
      .ok (.response headerSize statusCode r.reason (some r.contentType)) := by
  have hdrop := r.spaced.drop_code
  rw [← hpos] at hdrop
  have hlength := congrArg List.length hdrop
  simp only [List.length_drop, List.length_append] at hlength
  have hfieldPos : 0 < contentTypeField.length := by decide
  have hcrlfLength : Lines.crlf.length = 2 := by decide
  have hle : pos ≤ (visible r.encode).length := by omega
  -- the reason phrase and the CR behind it
  have hreason := search_of_find r.encode hle (hdrop ▸ Lines.find_crlf r.reason_plain.1 _)
  have hreasonSlice := slice_of_drop hle hdrop
  have hnext : (visible r.encode).drop (pos + r.reason.length + 1) =
      Lines.lf :: (r.front ++ (contentTypeField ++ (r.contentType ++ (Lines.crlf ++
        (r.behind ++ visible r.body))))) := by
    rw [← List.drop_drop, drop_add_of_drop hdrop]
    rfl
  have hnextLe : pos + r.reason.length + 1 ≤ (visible r.encode).length := by omega
  -- the name of the field, behind the lines before it
  have hfound := find_contentType (fun line h => (r.before_plain line h).2.2)
    (r.contentType ++ (Lines.crlf ++ (r.behind ++ visible r.body)))
  have hfield : search contentTypeField r.encode (pos + r.reason.length + 1) =
      .ok (some (pos + r.reason.length + 1 + (1 + r.front.length))) :=
    search_of_find r.encode hnextLe (hnext ▸ hfound)
  have htype : (visible r.encode).drop (pos + r.reason.length + 1 + (1 + r.front.length) +
      contentTypeField.length) = r.contentType ++ (Lines.crlf ++ (r.behind ++ visible r.body)) := by
    refine drop_add_of_drop ?_
    rw [← List.drop_drop, hnext, Nat.add_comm 1, List.drop_succ_cons, List.drop_left]
  have htypeLe : pos + r.reason.length + 1 + (1 + r.front.length) + contentTypeField.length ≤
      (visible r.encode).length := by omega
  have hstop := search_of_find r.encode htypeLe (htype ▸ Lines.find_crlf r.contentType_plain.1 _)
  have htypeSlice := slice_of_drop htypeLe htype
  simp only [readReason, readContentType, hreason, hfield, hstop, hreasonSlice, htypeSlice,
    Fallible.ok_bind, Fallible.pure_eq]

/-- What the server sends is read as it was meant. -/
theorem readResponse_encode (hlt : r.encode.length < 2 ^ 31) :
    readResponse target r.encode = .ok (.response r.head.length (BitVec.ofNat 32 r.code) r.reason
      (some r.contentType)) := by
  have hplain : ∀ line ∈ r.lines, Lines.Plain line := fun line h => (r.plain_of_mem_lines line h).1
  rcases Lines.find_blank hplain (by simp [lines]) (visible r.body) with ⟨i, hi, hlength⟩
  have hblank : find Lines.blank (visible r.encode) = some i := by
    rw [visible_encode]
    exact hi
  have hshort : ¬ 16 ≤ r.codeText.length := by
    have hcode := r.code_lt
    have hle : r.codeText.length ≤ 10 := Decimal.printNat_length_le (by decide) (by omega)
    omega
  have hhead : (BitVec.ofNat 32 (i + 4)).toInt = (r.head.length : Int) := by
    have heq : i + 4 = r.head.length := hlength
    have hle : r.head.length ≤ r.encode.length := by simp [encode]
    have hnat : (BitVec.ofNat 32 r.head.length).toNat = r.head.length := by
      rw [BitVec.toNat_ofNat, Nat.mod_eq_of_lt (by omega)]
    rw [heq, BitVec.toInt_eq_toNat_of_lt (by rw [hnat]; omega), hnat]
  have hatoi : atoi target r.codeText = BitVec.ofNat 32 r.code := atoi_printNat r.code_lt
  rw [readResponse_of_spaced hblank r.spaced, if_neg hshort, hhead, hatoi]
  exact r.readReason_encode _ _ rfl

end Response

/-! ## What the script sees -/

/-- The `http_t` of a request. -/
def Outcome.http (o : Outcome) (fits : o.response.length ≤ target.ptrdiffMax) : HttpT target where
  status := o.status
  statusCode := o.statusCode
  reasonPhrase := some o.reasonPhrase
  contentType := some o.contentType
  response := o.response
  fits := fits

/-- What the functions push for an object, when `http_process` leaves `p` and they are asked one
after the other. -/
def Shows (r : Response) (p : Processed target) : Prop :=
  ∀ (s : State target) (ctx b : Nat) (old : HttpT target), s.contexts[ctx]? = some (some b) →
    s.blocks[b]? = some (some old) → ∃ s' : State target,
      knHttpUpdate s p [.request ctx] =
        .ok (s', [if r.code < 300 then updateDone else updateError]) ∧
      knHttpData s' [.request ctx] =
        .ok (s', [if r.code < 300 then .value (.string r.body) else pushNil]) ∧
      knHttpDataSize s' [.request ctx] =
        .ok (s', [pushInteger (BitVec.ofNat target.wordBits r.body.length)]) ∧
      knHttpErrorCode s' [.request ctx] = .ok (s', [pushInteger (BitVec.ofNat 32 r.code)]) ∧
      knHttpError s' [.request ctx] = .ok (s', [.value (.string (r.reason.take 1023))]) ∧
      knHttpContentType s' [.request ctx] = .ok (s',
        [if r.contentType = [] then pushNil else .value (.string (r.contentType.take 255))])

/-- What a request shows that has read the response. -/
def Response.outcome (r : Response) : Outcome where
  status := if r.code < 300 then statusCompleted else statusFailed
  statusCode := BitVec.ofNat 32 r.code
  reasonPhrase := CString.upToNul (r.reason.take 1023)
  contentType := CString.upToNul (r.contentType.take 255)
  response := r.body

theorem outcome_encode (r : Response) :
    (Reading.response r.head.length (BitVec.ofNat 32 r.code) r.reason (some r.contentType)).outcome
      r.encode = r.outcome := by
  have hcode : (BitVec.ofNat 32 r.code).toInt = r.code := by
    have hlt := r.code_lt
    have hnat : (BitVec.ofNat 32 r.code).toNat = r.code := by
      rw [BitVec.toNat_ofNat, Nat.mod_eq_of_lt (by omega)]
    rw [BitVec.toInt_eq_toNat_of_lt (by rw [hnat]; omega), hnat]
  have hiff : ((r.code : Int) < 300) ↔ r.code < 300 := by omega
  have hdrop : r.encode.drop r.head.length = r.body := List.drop_left
  simp [Reading.outcome, Response.outcome, hcode, hiff, hdrop]

/-- What the functions read of an object that is there. -/
theorem inspect_live {s : State target} {ctx b : Nat} {http : HttpT target}
    (hctx : s.contexts[ctx]? = some (some b)) (hblock : s.blocks[b]? = some (some http))
    (gone : Item) (read : HttpT target → Item) :
    inspect s gone read [.request ctx] = .ok (s, [read http]) := by
  simp [inspect, onContext, touserdata_request hctx, readAt_eq_ok.mpr hctx, deref_of_block hblock]

theorem knHttpUpdate_live {s : State target} {ctx b : Nat} {old : HttpT target}
    (hctx : s.contexts[ctx]? = some (some b)) (hblock : s.blocks[b]? = some (some old))
    (p : Processed target) (hended : p.status = statusCompleted ∨ p.status = statusFailed) :
    knHttpUpdate s p [.request ctx] = .ok ({ s with blocks := s.blocks.set b (some p.http) },
      [if p.status = statusCompleted then updateDone else updateError]) := by
  simp only [knHttpUpdate, onContext, touserdata_request hctx, readAt_eq_ok.mpr hctx, httpProcess,
    deref_of_block hblock, Fallible.ok_bind, Fallible.pure_eq]
  rcases hended with h | h
  · simp [h, statusPending, statusCompleted, statusFailed]
  · simp [h, statusPending, statusCompleted, statusFailed]

/-- A text that is cut off is what the script gets of it. -/
theorem upToNul_take {text : Bytes} (h : (0 : UInt8) ∉ text) (n : Nat) :
    (CString.upToNul (text.take n)).bytes = text.take n :=
  congrArg CString.bytes (CString.upToNul_bytes ⟨_, fun hmem => h (List.mem_of_mem_take hmem)⟩)

theorem Response.outcome_completed (r : Response) :
    r.outcome.status = statusCompleted ↔ r.code < 300 := by
  by_cases hcode : r.code < 300
  · simp [Response.outcome, hcode]
  · simp [Response.outcome, hcode, statusCompleted, statusFailed]

/-- The poll behind the end of the exchange says how it ended. -/
theorem update_outcome (r : Response) (fits : r.outcome.response.length ≤ target.ptrdiffMax)
    {s : State target} {ctx b : Nat} {old : HttpT target} (hctx : s.contexts[ctx]? = some (some b))
    (hblock : s.blocks[b]? = some (some old)) :
    knHttpUpdate s ⟨r.outcome.http fits, r.outcome.status⟩ [.request ctx] =
      .ok ({ s with blocks := s.blocks.set b (some (r.outcome.http fits)) },
        [if r.code < 300 then updateDone else updateError]) := by
  have hupdate := knHttpUpdate_live hctx hblock ⟨r.outcome.http fits, r.outcome.status⟩ (by
    by_cases hcode : r.code < 300
    · exact Or.inl (if_pos hcode)
    · exact Or.inr (if_neg hcode))
  rw [hupdate]
  simp only [r.outcome_completed]

theorem shows_outcome (r : Response) (fits : r.outcome.response.length ≤ target.ptrdiffMax) :
    Shows r ⟨r.outcome.http fits, r.outcome.status⟩ := by
  intro s ctx b old hctx hblock
  have hlt : b < s.blocks.length := (List.getElem?_eq_some_iff.mp hblock).1
  have hupdate := update_outcome r fits hctx hblock
  have hdone := r.outcome_completed
  have hreason := upToNul_take r.reason_plain.2 1023
  have htype := upToNul_take r.contentType_plain.2 255
  -- the object has its new answer from now on
  generalize hs' : ({ s with blocks := s.blocks.set b (some (r.outcome.http fits)) } :
    State target) = s' at hupdate
  have hctx' : s'.contexts[ctx]? = some (some b) := by rw [← hs']; exact hctx
  have hblock' : s'.blocks[b]? = some (some (r.outcome.http fits)) := by
    rw [← hs']
    exact List.getElem?_set_self hlt
  refine ⟨s', ?_, ?_, ?_, ?_, ?_, ?_⟩
  · exact hupdate
  · rw [knHttpData, inspect_live hctx' hblock']
    simp only [Outcome.http, hdone]
    rfl
  · exact inspect_live hctx' hblock' _ _
  · exact inspect_live hctx' hblock' _ _
  · rw [knHttpError, inspect_live hctx' hblock']
    simp only [Outcome.http, Response.outcome, hreason]
  · rw [knHttpContentType, inspect_live hctx' hblock']
    have hempty : (r.contentType.take 255).length = 0 ↔ r.contentType = [] := by
      rw [List.length_take, ← List.length_eq_zero_iff]
      omega
    simp only [Outcome.http, Response.outcome, CString.length, htype, ne_eq, hempty, ite_not]

/-- Whatever the delivery of a well-formed answer, the request ends with what the answer says. -/
theorem exchange_outcome {heap : Heap target} {garbage : Garbage}
    {connect : CString → CString → Bool} {sent : Sent} {start : Client target}
    (hstart : httpConnect heap garbage connect sent = .ok (some start)) (hdata : start.data ≠ none)
    (hurl : sent.url.length < 2 ^ 30) (hbody : sent.body.length < 2 ^ 31) {r : Response}
    (hlt : r.encode.length < 2 ^ 31) (e : Exchange target r.encode) :
    r.outcome.response.length ≤ target.ptrdiffMax ∧
      ∃ (c : Client target) (happened : List (List Event)),
        (Client.machine start).run e.polls = .ok (c, happened) ∧ c.outcome = .ok r.outcome := by
  have hrun := exchange_run hstart hdata hurl hbody hlt e
  rw [r.readResponse_encode hlt] at hrun
  rcases hrun with ⟨c, happened, hrun, hfinished⟩
  refine ⟨?_, c, happened, hrun, ?_⟩
  · have hle : r.body.length ≤ r.encode.length := by simp [Response.encode]
    have hbound : 2 ^ 31 - 1 ≤ target.ptrdiffMax := by cases target <;> decide
    have heq : r.outcome.response = r.body := rfl
    rw [heq]
    omega
  · rw [hfinished.outcome, outcome_encode]

/-- A well-formed answer, however it is delivered, completes the request when its code is below 300,
and the functions of `http.c` push the code, the reason phrase and the content type, as far as their
arrays hold them, and all of the body. -/
theorem response_correct (heap : Heap target) (garbage : Garbage)
    (connect : CString → CString → Bool) (sent : Sent) (start : Client target)
    (hstart : httpConnect heap garbage connect sent = .ok (some start)) (hdata : start.data ≠ none)
    (hurl : sent.url.length < 2 ^ 30) (hbody : sent.body.length < 2 ^ 31) (r : Response)
    (hlt : r.encode.length < 2 ^ 31) (e : Exchange target r.encode) :
    ∃ (c : Client target) (happened : List (List Event)) (o : Outcome)
      (fits : o.response.length ≤ target.ptrdiffMax),
      (Client.machine start).run e.polls = .ok (c, happened) ∧ c.outcome = .ok o ∧
        Shows r ⟨o.http fits, o.status⟩ := by
  rcases exchange_outcome hstart hdata hurl hbody hlt e with ⟨hfits, c, happened, hrun, houtcome⟩
  exact ⟨c, happened, r.outcome, hfits, hrun, houtcome, shows_outcome r hfits⟩

/-- `404 Not Found`, with two bytes of text. -/
def notFound : Response where
  version := CString.ascii "HTTP/1.0"
  code := 404
  reason := CString.ascii "Not Found"
  before := [CString.ascii "Server: a"]
  contentType := CString.ascii "text/plain"
  after := []
  body := CString.ascii "no"
  version_plain := by decide
  code_lt := by decide
  reason_plain := by decide
  before_plain := by
    intro line h
    rw [List.mem_singleton.mp h]
    exact ⟨⟨by decide, by decide⟩, by decide, by decide⟩
  contentType_plain := by decide
  after_plain := by simp

/-- It is cut in the code and in the blank line. -/
def notFoundExchange : Exchange .aarch64 notFound.encode :=
  .inPieces notFound.encode 10 61 (by decide) (by decide) (by decide +kernel) (by decide +kernel)

theorem response_correct_notFound :
    ∃ (start c : Client .aarch64) (happened : List (List Event)) (o : Outcome)
      (fits : o.response.length ≤ Target.aarch64.ptrdiffMax),
      (Client.machine start).run notFoundExchange.polls = .ok (c, happened) ∧ c.outcome = .ok o ∧
        Shows notFound ⟨o.http fits, o.status⟩ := by
  rcases hello_started with ⟨start, hstart, hdata⟩
  rcases response_correct _ _ _ _ start hstart hdata (by decide) (by decide) notFound
    (by decide +kernel) notFoundExchange with ⟨c, happened, o, fits, h⟩
  exact ⟨start, c, happened, o, fits, h⟩

end Http
end KnShim
