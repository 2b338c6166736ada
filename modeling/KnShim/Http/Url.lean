import KnShim.Lib.Search

/-!
# Http.Url — how the HTTP library takes a URL apart

`http_internal_parse_url` looks for the first `:` of the whole URL, and only without one for the
first `/`.  `UrlParts` are the parts that such a URL has; every URL with the scheme has them in
exactly one way, and `parseUrl_correct` says that the function finds them.
-/

namespace KnShim
namespace Http

open Lib Search

/-! ## The function -/

def scheme : Bytes := CString.ascii "http://"

def colon : UInt8 := 0x3a

def slash : UInt8 := 0x2f

def defaultPort : CString := CString.literal "80"

/-- `strchr`. -/
def strchr (s : CString) (c : UInt8) : Option Nat := find [c] s.bytes

/-- `http_internal_parse_url` behind the `:`. -/
def parsePort (url : CString) (address port : Bytes) :
    Fallible (Option (Bytes × Bytes × CString)) :=
  let portEnd := (strchr url slash).getD url.length
  if portEnd ≥ port.length then .ok none
  else do
    let port ← CString.store port 0 (url.take portEnd)
    return some (address, port, url.drop portEnd)

/-- `http_internal_parse_url`, with the arrays for the address and the port; `none` is 0. -/
def httpInternalParseUrl (url : CString) (address port : Bytes) :
    Fallible (Option (Bytes × Bytes × CString)) :=
  if ¬ scheme <+: url.bytes then .ok none
  else do
    let url := url.drop 7
    let addressEnd := ((strchr url colon).or (strchr url slash)).getD url.length
    if addressEnd ≥ address.length then return none
    else do
      let address ← CString.store address 0 (url.take addressEnd)
      if url.bytes[addressEnd]? = some colon then parsePort (url.drop (addressEnd + 1)) address port
      else if port.length ≤ 2 then return none
      else do
        let port ← CString.store port 0 defaultPort
        return some (address, port, url.drop addressEnd)

/-! ## What a URL is made of -/

/-- What a URL says behind its scheme.  The port begins at the first `:` and ends at a `/`; without a
port there is no `:` at all. -/
@[ext] structure UrlParts where
  address : CString
  port : Option CString
  resource : CString
  addressPlain : colon ∉ address.bytes
  portPlain : ∀ p, port = some p → slash ∉ p.bytes
  rooted : resource.bytes = [] ∨ ∃ rest, resource.bytes = slash :: rest
  noPort : port = none → slash ∉ address.bytes ∧ colon ∉ resource.bytes

namespace UrlParts

/-- The URL behind its scheme. -/
def rest (u : UrlParts) : Bytes :=
  match u.port with
  | some p => u.address.bytes ++ colon :: (p.bytes ++ u.resource.bytes)
  | none => u.address.bytes ++ u.resource.bytes

def text (u : UrlParts) : Bytes := scheme ++ u.rest

/-- The port, where there is none the default one. -/
def portText (u : UrlParts) : CString := u.port.getD defaultPort

/-- The parts and their NULs have room in the arrays. -/
def Fits (u : UrlParts) (addressCapacity portCapacity : Nat) : Prop :=
  u.address.length < addressCapacity ∧ u.portText.length < portCapacity

instance (u : UrlParts) (a p : Nat) : Decidable (u.Fits a p) := inferInstanceAs (Decidable (_ ∧ _))

variable (u : UrlParts)

/-- A part that ends at the first `/`, or at the end. -/
theorem find_slash {xs : Bytes} (hxs : slash ∉ xs) :
    (find [slash] (xs ++ u.resource.bytes)).getD (xs ++ u.resource.bytes).length = xs.length := by
  rcases u.rooted with hempty | ⟨rest, hrest⟩
  · have hnone : find [slash] xs = none := by
      rw [find_eq_none_iff]
      rintro ⟨s, t, rfl⟩
      simp at hxs
    simp [hempty, hnone]
  · rw [hrest]
    have hfind : find [slash] (xs ++ slash :: rest) = some xs.length := find_at hxs
    simp [hfind]

theorem colon_not_mem_rest (h : u.port = none) : colon ∉ u.rest := by
  simp only [rest, h, List.mem_append, not_or]
  exact ⟨u.addressPlain, (u.noPort h).2⟩

theorem find_colon {p : CString} (h : u.port = some p) :
    find [colon] u.rest = some u.address.length := by
  rw [rest, h]
  exact find_at u.addressPlain

theorem find_colon_none (h : u.port = none) : find [colon] u.rest = none := by
  rw [find_eq_none_iff]
  rintro ⟨s, t, hst⟩
  have hmem : colon ∈ u.rest := by simp [← hst]
  exact u.colon_not_mem_rest h hmem

/-- Where the address ends. -/
theorem addressEnd_eq :
    ((find [colon] u.rest).or (find [slash] u.rest)).getD u.rest.length = u.address.length := by
  cases h : u.port with
  | some p => simp [u.find_colon h]
  | none =>
      rw [u.find_colon_none h]
      simp only [rest, h, Option.none_or]
      exact u.find_slash (u.noPort h).1

theorem take_address : u.rest.take u.address.length = u.address.bytes := by
  cases h : u.port with
  | some p => simp [rest, h, CString.length]
  | none => simp [rest, h, CString.length]

theorem drop_address {p : CString} (h : u.port = some p) :
    u.rest.drop (u.address.length + 1) = p.bytes ++ u.resource.bytes := by
  simp only [rest, h, CString.length]
  rw [← List.drop_drop, List.drop_left]
  rfl

theorem drop_address_none (h : u.port = none) :
    u.rest.drop u.address.length = u.resource.bytes := by
  simp [rest, h, CString.length]

theorem getElem?_address : u.rest[u.address.length]? = some colon ↔ u.port ≠ none := by
  cases h : u.port with
  | none =>
      refine iff_of_false (fun hat => ?_) (by simp)
      exact u.colon_not_mem_rest h (List.mem_of_getElem? hat)
  | some p => simp [rest, h, CString.length]

/-- The parts can be told from the text. -/
theorem rest_injective {u v : UrlParts} (h : u.rest = v.rest) : u = v := by
  have hlength : u.address.length = v.address.length := by
    rw [← u.addressEnd_eq, ← v.addressEnd_eq, h]
  have haddress : u.address = v.address := by
    apply CString.ext
    rw [← u.take_address, ← v.take_address, h, hlength]
  cases hu : u.port with
  | none =>
      cases hv : v.port with
      | none =>
          have hresource : u.resource = v.resource := by
            apply CString.ext
            rw [← u.drop_address_none hu, ← v.drop_address_none hv, h, hlength]
          exact UrlParts.ext haddress (hu.trans hv.symm) hresource
      | some q =>
          have hcolon := v.find_colon hv
          rw [← h, u.find_colon_none hu] at hcolon
          cases hcolon
  | some p =>
      cases hv : v.port with
      | none =>
          have hcolon := u.find_colon hu
          rw [h, v.find_colon_none hv] at hcolon
          cases hcolon
      | some q =>
          -- what follows the `:` is split at the first `/`
          have hbehind : p.bytes ++ u.resource.bytes = q.bytes ++ v.resource.bytes := by
            rw [← u.drop_address hu, ← v.drop_address hv, h, hlength]
          have hports : p.bytes.length = q.bytes.length := by
            rw [← u.find_slash (u.portPlain p hu), ← v.find_slash (v.portPlain q hv), hbehind]
          rcases List.append_inj hbehind hports with ⟨hpq, hresource⟩
          refine UrlParts.ext haddress ?_ (CString.ext hresource)
          rw [hu, hv, CString.ext hpq]

theorem text_injective {u v : UrlParts} (h : u.text = v.text) : u = v :=
  rest_injective (List.append_cancel_left h)

end UrlParts

/-- A text has no separator, or one after a first part without any. -/
theorem exists_split (c : UInt8) (s : CString) :
    c ∉ s.bytes ∨ ∃ before behind : CString, c ∉ before.bytes ∧
      s.bytes = before.bytes ++ c :: behind.bytes := by
  cases h : find [c] s.bytes with
  | none =>
      left
      intro hmem
      rcases List.append_of_mem hmem with ⟨xs, ys, hxs⟩
      exact find_eq_none_iff.mp h ⟨xs, ys, by simp [hxs]⟩
  | some i =>
      refine Or.inr ⟨s.take i, s.drop (i + 1), ?_, split_of_find h⟩
      intro hmem
      rw [CString.take_bytes] at hmem
      rcases List.append_of_mem hmem with ⟨xs, ys, hxs⟩
      have hnot := not_inside_take_of_find h (by simp)
      exact hnot ⟨xs, ys, by simp [← hxs]⟩

/-- Every text is what stands behind the scheme of a URL. -/
theorem exists_parts (rest : CString) : ∃ u : UrlParts, u.rest = rest.bytes := by
  -- without a `/` everything is in the first part
  have hslash : ∀ s : CString, ∃ first resource : CString, slash ∉ first.bytes ∧
      s.bytes = first.bytes ++ resource.bytes ∧
        (resource.bytes = [] ∨ ∃ tail, resource.bytes = slash :: tail) := by
    intro s
    rcases exists_split slash s with hnone | ⟨before, behind, hbefore, hs⟩
    · exact ⟨s, CString.empty, hnone, (List.append_nil _).symm, Or.inl rfl⟩
    · have hne : slash ≠ 0 := by decide
      exact ⟨before, behind.cons slash hne, hbefore, hs, Or.inr ⟨behind.bytes, rfl⟩⟩
  rcases exists_split colon rest with hnone | ⟨address, behind, haddress, hrest⟩
  · rcases hslash rest with ⟨address, resource, hplain, hrest, hrooted⟩
    rw [hrest, List.mem_append, not_or] at hnone
    exact ⟨⟨address, none, resource, hnone.1, by simp, hrooted, fun _ => ⟨hplain, hnone.2⟩⟩,
      hrest.symm⟩
  · rcases hslash behind with ⟨port, resource, hplain, hbehind, hrooted⟩
    refine ⟨⟨address, some port, resource, haddress, ?_, hrooted, by simp⟩, ?_⟩
    · intro p hp
      cases hp
      exact hplain
    · rw [hrest, hbehind]
      rfl

/-- Every URL with the scheme has parts. -/
theorem exists_parts_of_scheme {url : CString} (h : scheme <+: url.bytes) :
    ∃ u : UrlParts, url.bytes = u.text := by
  rcases h with ⟨rest, hrest⟩
  have hnul : (0 : UInt8) ∉ rest := by
    intro hmem
    exact url.noNul (hrest ▸ List.mem_append_right _ hmem)
  rcases exists_parts ⟨rest, hnul⟩ with ⟨u, hu⟩
  refine ⟨u, ?_⟩
  rw [UrlParts.text, hu]
  exact hrest.symm

/-! ## What the function finds -/

/-- The function finds the parts when they have room in its arrays, and returns 0 otherwise. -/
def FindsParts (u : UrlParts) (address port : Bytes)
    (result : Fallible (Option (Bytes × Bytes × CString))) : Prop :=
  if u.Fits address.length port.length then
    ∃ address' port', result = .ok (some (address', port', u.resource)) ∧
      u.address.Starts address' ∧ address'.length = address.length ∧
      u.portText.Starts port' ∧ port'.length = port.length
  else result = .ok none

/-- The port is copied when it and its NUL have room. -/
theorem parsePort_text (u : UrlParts) {p url : CString} (hp : u.port = some p)
    (hurl : url.bytes = p.bytes ++ u.resource.bytes) (address port : Bytes) :
    if p.length < port.length then
      ∃ port', parsePort url address port = .ok (some (address, port', u.resource)) ∧
        p.Starts port' ∧ port'.length = port.length
    else parsePort url address port = .ok none := by
  have hend : (strchr url slash).getD url.length = p.length := by
    rw [strchr, CString.length, hurl]
    exact u.find_slash (u.portPlain p hp)
  have htake : url.take p.length = p := by
    apply CString.ext
    rw [CString.take_bytes, hurl]
    exact List.take_left
  have hdrop : url.drop p.length = u.resource := by
    apply CString.ext
    rw [CString.drop_bytes, hurl]
    exact List.drop_left
  simp only [parsePort, hend, htake, hdrop]
  split_ifs with hroom hfull hfull
  · exact absurd hroom (Nat.not_lt.mpr hfull)
  · rcases CString.store_zero p hroom with ⟨port', hstore, hstarts, hlength⟩
    exact ⟨port', by rw [hstore]; rfl, hstarts, hlength⟩
  · rfl
  · exact absurd (Nat.not_lt.mp hroom) hfull

/-- Behind an address without a port the default port is copied. -/
theorem findsParts_default {u : UrlParts} {url : CString} {address address' : Bytes}
    (hrest : url.bytes = u.rest) (h : u.port = none) (hroom : u.address.length < address.length)
    (hstarts : u.address.Starts address') (hlength : address'.length = address.length)
    (port : Bytes) :
    FindsParts u address port
      (if port.length ≤ 2 then return none
      else do
        let port ← CString.store port 0 defaultPort
        return some (address', port, url.drop u.address.length)) := by
  have hresource : url.drop u.address.length = u.resource := by
    apply CString.ext
    rw [CString.drop_bytes, hrest, u.drop_address_none h]
  have hport : u.portText = defaultPort := by rw [UrlParts.portText, h]; rfl
  rw [hresource, FindsParts]
  by_cases hshort : port.length ≤ 2
  · have hnot : ¬ u.Fits address.length port.length := by
      intro hfits
      rw [UrlParts.Fits, hport] at hfits
      exact absurd hfits.2 (Nat.not_lt.mpr hshort)
    rw [if_neg hnot, if_pos hshort]
    rfl
  · have hfits : u.Fits address.length port.length := by
      rw [UrlParts.Fits, hport]
      exact ⟨hroom, Nat.not_le.mp hshort⟩
    rcases CString.store_zero defaultPort (Nat.not_le.mp hshort) with
      ⟨port', hstore, hstarts', hlength'⟩
    rw [if_pos hfits, if_neg hshort, hstore, hport]
    exact ⟨address', port', rfl, hstarts, hlength, hstarts', hlength'⟩

/-- Behind an address with a port that port is copied. -/
theorem findsParts_port {u : UrlParts} {url p : CString} {address address' : Bytes}
    (hrest : url.bytes = u.rest) (h : u.port = some p) (hroom : u.address.length < address.length)
    (hstarts : u.address.Starts address') (hlength : address'.length = address.length)
    (port : Bytes) :
    FindsParts u address port
      (parsePort (url.drop (u.address.length + 1)) address' port) := by
  have hbehind : (url.drop (u.address.length + 1)).bytes = p.bytes ++ u.resource.bytes := by
    rw [CString.drop_bytes, hrest, u.drop_address h]
  have hport : u.portText = p := by rw [UrlParts.portText, h]; rfl
  have hparse := parsePort_text u h hbehind address' port
  have hiff : u.Fits address.length port.length ↔ p.length < port.length := by
    rw [UrlParts.Fits, hport]
    exact and_iff_right hroom
  rw [FindsParts]
  by_cases hfits : p.length < port.length
  · rw [if_pos hfits] at hparse
    rcases hparse with ⟨port', hrun, hstarts', hlength'⟩
    rw [if_pos (hiff.mpr hfits), hport]
    exact ⟨address', port', hrun, hstarts, hlength, hstarts', hlength'⟩
  · rw [if_neg hfits] at hparse
    rw [if_neg fun h => hfits (hiff.mp h)]
    exact hparse

theorem findsParts_text (u : UrlParts) {url : CString} (hurl : url.bytes = u.text)
    (address port : Bytes) : FindsParts u address port (httpInternalParseUrl url address port) := by
  have hscheme : scheme <+: url.bytes := hurl ▸ List.prefix_append _ _
  have hrest : (url.drop 7).bytes = u.rest := by
    rw [CString.drop_bytes, hurl]
    rfl
  have hend : ((strchr (url.drop 7) colon).or (strchr (url.drop 7) slash)).getD
      (url.drop 7).length = u.address.length := by
    rw [strchr, strchr, CString.length, hrest]
    exact u.addressEnd_eq
  have haddress : (url.drop 7).take u.address.length = u.address := by
    apply CString.ext
    rw [CString.take_bytes, hrest]
    exact u.take_address
  rw [httpInternalParseUrl, if_neg (not_not.mpr hscheme)]
  simp only [hend, haddress]
  by_cases hroom : u.address.length < address.length
  · rw [if_neg (Nat.not_le.mpr hroom)]
    rcases CString.store_zero u.address hroom with ⟨address', hstore, hstarts, hlength⟩
    rw [hstore, Fallible.ok_bind]
    cases h : u.port with
    | none =>
        have hcolon : ¬ (url.drop 7).bytes[u.address.length]? = some colon := by
          rw [hrest]
          exact fun hat => u.getElem?_address.mp hat h
        rw [if_neg hcolon]
        exact findsParts_default hrest h hroom hstarts hlength port
    | some p =>
        have hcolon : (url.drop 7).bytes[u.address.length]? = some colon := by
          rw [hrest]
          exact u.getElem?_address.mpr (by simp [h])
        rw [if_pos hcolon]
        exact findsParts_port hrest h hroom hstarts hlength port
  · have hnot : ¬ u.Fits address.length port.length := fun h => hroom h.1
    rw [FindsParts, if_neg hnot, if_pos (Nat.not_lt.mp hroom)]
    rfl

/-- A URL with the scheme has its parts in exactly one way, and the function finds them, inside its
arrays, when they have room there.  It returns 0 for any other URL. -/
theorem parseUrl_correct (url : CString) (address port : Bytes) :
    (scheme <+: url.bytes → ∃ u : UrlParts, url.bytes = u.text ∧
        (∀ v : UrlParts, url.bytes = v.text → v = u) ∧
        FindsParts u address port (httpInternalParseUrl url address port)) ∧
      (¬ scheme <+: url.bytes → httpInternalParseUrl url address port = .ok none) := by
  constructor
  · intro h
    rcases exists_parts_of_scheme h with ⟨u, htext⟩
    refine ⟨u, htext, fun v hv => ?_, findsParts_text u htext address port⟩
    exact UrlParts.text_injective (hv.symm.trans htext)
  · intro h
    rw [httpInternalParseUrl, if_pos h]

end Http
end KnShim
