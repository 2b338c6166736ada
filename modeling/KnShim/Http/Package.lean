import KnShim.Http.Answer
import KnShim.NxArchive.Install

/-!
# Http.Package — a package on its way from a server into files

A script that gets a package polls a request, and has the body of the answer extracted.  The parts
were treated alone: `Delivery` and `Answer` for the bytes, `NxArchive.Grammar` for the archive,
`NxArchive.Install` for the files.  `package_installed` puts them together.
-/

namespace KnShim
namespace Http

open Lib Lua NxArchive Search

variable {target : Target}

/-- `knHttpExtractNxArchive`, with what it does to the files. -/
def knHttpInstallNxArchive (numerals : Numerals) (stack : Fin pathMax → UInt8)
    (denote : CString → Path) (s : State target) : List Item → Proc (State target × List Item)
  | arg :: dest :: _ =>
      match touserdata s arg with
      | none => return (s, [pushString "http context is null"])
      | some ctx => do
          let context ← Proc.lift (readAt s.contexts ctx)
          if context = none then return (s, [pushString "http context is null"])
          else
            match dest.toCString numerals with
            | none => return (s, [pushString "dest is null"])
            | some dest => do
                let (_, http) ← Proc.lift (s.deref context)
                match ← installArchive target stack denote dest http.response with
                | some err => return (s, [pushString err])
                | none => return (s, [.value (.boolean false)])
  | _ => return (s, [pushString "not enough params"])

variable {numerals : Numerals} {stack : Fin pathMax → UInt8} {denote : CString → Path}
  {s : State target} {args : List Item}

/-- What the script gets does not depend on the files. -/
theorem knHttpInstallNxArchive_eq {r : State target × List Item}
    (h : knHttpExtractNxArchive numerals stack s args = .ok r) :
    ∃ effects, knHttpInstallNxArchive numerals stack denote s args =
      performAll denote effects >>= fun _ => pure r := by
  match args with
  | [] =>
      cases h
      exact ⟨[], rfl⟩
  | [_] =>
      cases h
      exact ⟨[], rfl⟩
  | arg :: dest :: args =>
      simp only [knHttpExtractNxArchive, onContext] at h
      simp only [knHttpInstallNxArchive]
      cases hdata : touserdata s arg with
      | none =>
          simp only [hdata] at h
          cases h
          exact ⟨[], rfl⟩
      | some ctx =>
          simp only [hdata] at h
          rcases Fallible.bind_eq_ok.mp h with ⟨context, hcontext, h⟩
          simp only [hcontext, lift_ok_bind]
          cases context with
          | none =>
              cases h
              exact ⟨[], rfl⟩
          | some b =>
              rw [if_neg (Option.some_ne_none b)] at h ⊢
              cases hdest : dest.toCString numerals with
              | none =>
                  simp only [hdest] at h
                  cases h
                  exact ⟨[], rfl⟩
              | some dest =>
                  simp only [hdest] at h
                  rcases Fallible.bind_eq_ok.mp h with ⟨⟨b', http⟩, hderef, h⟩
                  rcases Fallible.bind_eq_ok.mp h with ⟨⟨effects, err⟩, hextract, h⟩
                  -- the files see the effects before the result is pushed
                  refine ⟨effects, ?_⟩
                  simp only [hderef, lift_ok_bind, installArchive_eq hextract, bind_assoc, pure_bind]
                  refine bind_congr (fun _ => ?_)
                  cases err with
                  | none =>
                      cases h
                      rfl
                  | some err =>
                      cases h
                      rfl

/-- What a script sees that polls once more and then has the answer extracted, when `http_process`
leaves `p`: the request is done, no error is reported, and of the files exactly those of the records
are changed; they are installed exactly when the last record for each of them lands. -/
def Installs (r : Response) (location : CString) (records : List Record) (p : Processed target) :
    Prop :=
  ∀ (s : State target) (ctx b : Nat) (old : HttpT target), s.contexts[ctx]? = some (some b) →
    s.blocks[b]? = some (some old) → ∃ s' : State target,
      knHttpUpdate s p [.request ctx] =
        .ok (s', [if r.code < 300 then updateDone else updateError]) ∧
      ∀ (numerals : Numerals) (stack : Fin pathMax → UInt8) (denote : CString → Path) (dest : Item)
        (args : List Item) (script : Script) (w : World), dest.toCString numerals = some location →
        (∀ n, ¬ (script n).Deadly) → ∃ w',
          knHttpInstallNxArchive numerals stack denote s' (.request ctx :: dest :: args) script w =
            (.ok (s', [.value (.boolean false)]), w') ∧
          (Installed denote location records w' ↔ LastLand denote location script records w) ∧
          ∀ path, LastFor denote location path records → w'.files path = w.files path

/-- The extraction of an object whose response is a complete archive that fits. -/
theorem knHttpInstallNxArchive_live {ctx b : Nat} {http : HttpT target} {location : CString}
    {records : List Record} {tail : Bytes} {dest : Item}
    (hctx : s.contexts[ctx]? = some (some b)) (hblock : s.blocks[b]? = some (some http))
    (hresponse : http.response = records.flatMap Record.encode ++ (toLE 4 300 ++ tail))
    (hfits : location.length + 2 ≤ pathMax) (hrecords : ∀ r ∈ records, r.FitsIn location)
    (hdest : dest.toCString numerals = some location) (args : List Item) :
    knHttpInstallNxArchive numerals stack denote s (.request ctx :: dest :: args) =
      performAll denote (records.filterMap (Record.effect location)) >>=
        fun _ => pure (s, [.value (.boolean false)]) := by
  have hextract : extractArchiveFromBuffer target stack location http.response =
      .ok (records.filterMap (Record.effect location), none) := by
    rw [hresponse]
    exact extract_records hfits records hrecords tail (hresponse ▸ http.fits)
  simp only [knHttpInstallNxArchive, touserdata_request hctx, readAt_eq_ok.mpr hctx, lift_ok_bind,
    hdest, deref_of_block hblock, installArchive_eq hextract, bind_assoc, pure_bind]
  rw [if_neg (Option.some_ne_none b)]

/-- A package reaches the files as it was sent: for every well-formed answer whose body begins with
a complete archive that fits, in whatever pieces it arrives and whatever is behind the archive. -/
theorem package_installed (heap : Heap target) (garbage : Garbage)
    (connect : CString → CString → Bool) (sent : Sent) (start : Client target)
    (hstart : httpConnect heap garbage connect sent = .ok (some start)) (hdata : start.data ≠ none)
    (hurl : sent.url.length < 2 ^ 30) (hbody : sent.body.length < 2 ^ 31) (r : Response)
    (hlt : r.encode.length < 2 ^ 31) (e : Exchange target r.encode) (location : CString)
    (records : List Record) (tail : Bytes)
    (hpackage : r.body = records.flatMap Record.encode ++ (toLE 4 300 ++ tail))
    (hfits : location.length + 2 ≤ pathMax) (hrecords : ∀ r ∈ records, r.FitsIn location) :
    ∃ (c : Client target) (happened : List (List Event)) (o : Outcome)
      (fits : o.response.length ≤ target.ptrdiffMax),
      (Client.machine start).run e.polls = .ok (c, happened) ∧ c.outcome = .ok o ∧
        Installs r location records ⟨o.http fits, o.status⟩ := by
  rcases exchange_outcome hstart hdata hurl hbody hlt e with
    ⟨hresponse, c, happened, hrun, houtcome⟩
  refine ⟨c, happened, r.outcome, hresponse, hrun, houtcome, ?_⟩
  intro s ctx b old hctx hblock
  have hlive : b < s.blocks.length := (List.getElem?_eq_some_iff.mp hblock).1
  refine ⟨_, update_outcome r hresponse hctx hblock, ?_⟩
  intro numerals stack denote dest args script w hdest hscript
  have hrecordsRun : ∃ w',
      performAll denote (records.filterMap (Record.effect location)) script w = (.ok (), w') ∧
      ∀ path, LastFor denote location path records → w'.files path = w.files path :=
    performAll_records hscript records w
  rcases hrecordsRun with ⟨w', hperform, hframe⟩
  have hiff : Installed denote location records
      (performAll denote (records.filterMap (Record.effect location)) script w).2 ↔
        LastLand denote location script records w := installed_iff hscript records w
  rw [hperform] at hiff
  have hblock' : (s.blocks.set b (some (r.outcome.http hresponse)))[b]? =
      some (some (r.outcome.http hresponse)) := List.getElem?_set_self hlive
  refine ⟨w', ?_, hiff, hframe⟩
  rw [knHttpInstallNxArchive_live
    (s := { s with blocks := s.blocks.set b (some (r.outcome.http hresponse)) })
    hctx hblock' hpackage hfits hrecords hdest args]
  exact (Proc.bind_ok hperform).trans rfl

/-- A package with one file, `a`. -/
def smallPackage : List Record :=
  [.start, .file ⟨[0x61, 0], ⟨[0x61], rfl⟩, by decide⟩ ⟨[1, 2], by decide⟩]

/-- An answer that holds it. -/
def packed : Response where
  version := CString.ascii "HTTP/1.0"
  code := 200
  reason := CString.ascii "OK"
  before := []
  contentType := CString.ascii "a/b"
  after := []
  body := smallPackage.flatMap Record.encode ++ (toLE 4 300 ++ [])
  version_plain := notFound.version_plain
  code_lt := by decide
  reason_plain := by decide
  before_plain := by
    intro line h
    cases h
  contentType_plain := by decide
  after_plain := notFound.after_plain

/-- It is cut in its head and in the name of the file. -/
def packedExchange : Exchange .aarch64 packed.encode :=
  .inPieces packed.encode 12 56 (by decide) (by decide) (by decide +kernel) (by decide +kernel)

theorem package_installed_packed :
    ∃ (start c : Client .aarch64) (happened : List (List Event)) (o : Outcome)
      (fits : o.response.length ≤ Target.aarch64.ptrdiffMax),
      (Client.machine start).run packedExchange.polls = .ok (c, happened) ∧ c.outcome = .ok o ∧
        Installs packed ⟨[0x64], by decide⟩ smallPackage ⟨o.http fits, o.status⟩ := by
  rcases hello_started with ⟨start, hstart, hdata⟩
  have hfits : ∀ r ∈ smallPackage, r.FitsIn ⟨[0x64], by decide⟩ := by
    simp only [smallPackage, List.forall_mem_cons]
    exact ⟨trivial, by simp only [Record.FitsIn, Name.FitsIn]; decide, fun r hr => by cases hr⟩
  rcases package_installed _ _ _ _ start hstart hdata (by decide) (by decide) packed
    (by decide +kernel) packedExchange ⟨[0x64], by decide⟩ smallPackage [] rfl (by decide) hfits with
    ⟨c, happened, o, fits, h⟩
  exact ⟨start, c, happened, o, fits, h⟩

end Http
end KnShim
