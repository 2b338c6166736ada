import KnShim.AndrLeaf.Link
import KnShim.AndrLeaf.Headers
import KnShim.Lib.Loop
import Mathlib.Data.List.Basic

/-!
# AndrLeaf.Dynamic — the scan of the dynamic section

`DynsAt` says which entries stand in the buffer before the first `DT_NULL`.  The scan is a fold over
them, and `scanned_eq` gives each variable in terms of the last entry that assigns it.  Hence the
order of the entries does not matter as long as no variable is assigned twice, and a variable
without an initialiser may be used exactly when one of its entries is there.
-/

namespace KnShim
namespace AndrLeaf

open Lib Load

variable {cls : ElfClass}

/-! ## The entries in the buffer -/

/-- The entries from an offset on, up to the first `DT_NULL`. -/
def DynsAt (input : Input cls) : Nat → List LeafDyn → Prop
  | pos, [] => readTag input pos = .ok .null
  | pos, dyn :: dyns =>
      readTag input pos = .ok dyn.dTag ∧ dyn.dTag ≠ .null ∧
        readWord input (pos + cls.wordBytes) = .ok dyn.dVal ∧
          DynsAt input (pos + LeafDyn.size cls) dyns

/-- Whether these are the entries can be computed. -/
def decDynsAt (input : Input cls) : (pos : Nat) → (dyns : List LeafDyn) →
    Decidable (DynsAt input pos dyns)
  | pos, [] => inferInstanceAs (Decidable (readTag input pos = .ok .null))
  | pos, dyn :: dyns =>
      have := decDynsAt input (pos + LeafDyn.size cls) dyns
      inferInstanceAs (Decidable (readTag input pos = .ok dyn.dTag ∧ dyn.dTag ≠ .null ∧
        readWord input (pos + cls.wordBytes) = .ok dyn.dVal ∧
          DynsAt input (pos + LeafDyn.size cls) dyns))

instance (input : Input cls) (pos : Nat) (dyns : List LeafDyn) :
    Decidable (DynsAt input pos dyns) := decDynsAt input pos dyns

theorem readWord_eq_ok {input : Input cls} {pos n : Nat} (h : readWord input pos = .ok n) :
    pos + cls.wordBytes ≤ input.length := by
  rw [readWord, Fallible.bind_eq_ok] at h
  rcases h with ⟨data, hdata, _⟩
  rw [readSlice] at hdata
  by_cases hle : pos + cls.wordBytes ≤ input.bytes.length
  · exact hle
  · rw [if_neg hle] at hdata
    cases hdata

theorem readTag_eq_ok {input : Input cls} {pos : Nat} {tag : DynTag}
    (h : readTag input pos = .ok tag) : pos + cls.wordBytes ≤ input.length := by
  rw [readTag, Fallible.bind_eq_ok] at h
  rcases h with ⟨n, hread, _⟩
  exact readWord_eq_ok hread

theorem wordBytes_pos (cls : ElfClass) : 0 < cls.wordBytes := by cases cls <;> decide

/-- The entries are in the buffer, so there are fewer of them than bytes. -/
theorem DynsAt.length_lt {input : Input cls} {pos : Nat} {dyns : List LeafDyn}
    (h : DynsAt input pos dyns) : pos + dyns.length < input.length := by
  have hword := wordBytes_pos cls
  induction dyns generalizing pos with
  | nil =>
      have hle := readTag_eq_ok h
      rw [List.length_nil]
      omega
  | cons dyn dyns ih =>
      have hlt := ih h.2.2.2
      rw [LeafDyn.size] at hlt
      rw [List.length_cons]
      omega

theorem readWord_lt {input : Input cls} {pos n : Nat} (h : readWord input pos = .ok n) :
    n < 2 ^ cls.bits := by
  rw [readWord, Fallible.bind_eq_ok] at h
  rcases h with ⟨data, hdata, hn⟩
  cases hn
  have hlen : data.length ≤ cls.wordBytes := by
    rw [readSlice] at hdata
    split at hdata
    · cases hdata
      exact List.length_take_le _ _
    · cases hdata
  have hpow : 256 ^ cls.wordBytes = 2 ^ cls.bits := by cases cls <;> rfl
  calc
    ofLE data < 256 ^ data.length := ofLE_lt data
    _ ≤ 256 ^ cls.wordBytes := Nat.pow_le_pow_right (by decide) hlen
    _ = 2 ^ cls.bits := hpow

/-- The values are words. -/
theorem DynsAt.dVal_lt {input : Input cls} {pos : Nat} {dyns : List LeafDyn}
    (h : DynsAt input pos dyns) : ∀ dyn ∈ dyns, dyn.dVal < 2 ^ cls.bits := by
  induction dyns generalizing pos with
  | nil => simp
  | cons dyn dyns ih =>
      rw [List.forall_mem_cons]
      exact ⟨readWord_lt h.2.2.1, ih h.2.2.2⟩

/-- There is one such list of entries. -/
theorem DynsAt.unique {input : Input cls} {pos : Nat} {dyns dyns' : List LeafDyn}
    (h : DynsAt input pos dyns) (h' : DynsAt input pos dyns') : dyns = dyns' := by
  induction dyns generalizing pos dyns' with
  | nil =>
      cases dyns' with
      | nil => rfl
      | cons dyn' dyns' => exact absurd (Except.ok.inj (h'.1.symm.trans h)) h'.2.1
  | cons dyn dyns ih =>
      rcases h with ⟨htag, hne, hval, hrest⟩
      cases dyns' with
      | nil => exact absurd (Except.ok.inj (htag.symm.trans h')) hne
      | cons dyn' dyns' =>
          rcases h' with ⟨htag', _, hval', hrest'⟩
          have hdyn : dyn = dyn' := by
            rcases dyn with ⟨dTag, dVal⟩
            rcases dyn' with ⟨dTag', dVal'⟩
            cases Except.ok.inj (htag.symm.trans htag')
            cases Except.ok.inj (hval.symm.trans hval')
            rfl
          rw [hdyn, ih hrest hrest']

/-- The scan is a fold over the entries. -/
theorem scanLoop_eq_ok {input : Input cls} {memory : Memory cls.bits} {blob : BitVec cls.bits}
    {fuel pos : Nat} {scan scan' : Scan cls.bits} :
    scanLoop input memory blob fuel pos scan = .ok scan' ↔
      ∃ dyns, dyns.length < fuel ∧ DynsAt input pos dyns ∧
        scan' = dyns.foldl (scanEntry memory blob) scan := by
  -- induction on the fuel, with one entry for each round
  induction fuel generalizing pos scan with
  | zero => simp [scanLoop]
  | succ fuel ih =>
      rw [scanLoop, Fallible.bind_eq_ok]
      constructor
      · rintro ⟨dTag, htag, hloop⟩
        by_cases hnull : dTag = .null
        · rw [if_pos hnull] at hloop
          rw [hnull] at htag
          cases hloop
          exact ⟨[], Nat.succ_pos fuel, htag, rfl⟩
        · rw [if_neg hnull, Fallible.bind_eq_ok] at hloop
          rcases hloop with ⟨dVal, hval, hloop⟩
          rcases ih.mp hloop with ⟨dyns, hlen, hat, rfl⟩
          exact ⟨⟨dTag, dVal⟩ :: dyns, Nat.succ_lt_succ hlen, ⟨htag, hnull, hval, hat⟩, rfl⟩
      · rintro ⟨dyns, hlen, hat, rfl⟩
        cases dyns with
        | nil => exact ⟨_, hat, if_pos rfl⟩
        | cons dyn dyns =>
            rcases hat with ⟨htag, hne, hval, hrest⟩
            refine ⟨_, htag, ?_⟩
            rw [if_neg hne, hval, Fallible.ok_bind]
            exact ih.mpr ⟨dyns, Nat.lt_of_succ_lt_succ hlen, hrest, rfl⟩

/-! ## The variables after the scan -/

/-- The entry has one of the tags. -/
def LeafDyn.hasTag (tags : List DynTag) (dyn : LeafDyn) : Bool := dyn.dTag ∈ tags

/-- The value of a variable after the scan: the last entry with one of the tags counts. -/
def assigned {β : Type} (tags : List DynTag) (value : Nat → β) (old : β) (dyns : List LeafDyn) : β :=
  (lastOf (LeafDyn.hasTag tags) (fun dyn => value dyn.dVal) dyns).getD old

/-- The names that the `DT_NEEDED` entries stand for. -/
def neededNames (w : Nat) (dyns : List LeafDyn) : List (BitVec w) :=
  (dyns.filter (LeafDyn.hasTag [.needed])).map fun dyn => BitVec.ofNat w dyn.dVal

section Scan

variable {w : Nat} (memory : Memory w) (blob : BitVec w)

/-- What an entry with an address points to. -/
def blobAt (dPtr : Nat) : BitVec w := blob + BitVec.ofNat w dPtr

/-- The variables after the scan of the entries. -/
def scanned (scan : Scan w) (dyns : List LeafDyn) : Scan w where
  dlHandles := scan.dlHandles ++ neededNames w dyns
  strtab := assigned [.strTab] (blobAt blob) scan.strtab dyns
  strtabSize := assigned [.strSz] some scan.strtabSize dyns
  relocTypes := assigned [.pltRel] some scan.relocTypes dyns
  relocs := assigned [.rela, .rel] (blobAt blob) scan.relocs dyns
  relocSize := assigned [.relaSz, .relSz] some scan.relocSize dyns
  relocEntSize := assigned [.relaEnt, .relEnt] some scan.relocEntSize dyns
  pltRelocs := assigned [.jmpRel] (blobAt blob) scan.pltRelocs dyns
  pltRelocsSize := assigned [.pltRelSz] some scan.pltRelocsSize dyns
  symtab := assigned [.symTab] (blobAt blob) scan.symtab dyns
  symCount := assigned [.hash] (hashChains memory blob) scan.symCount dyns
  symEntSize := assigned [.symEnt] some scan.symEntSize dyns
  initArray := assigned [.initArray] (blobAt blob) scan.initArray dyns
  initArraySize := assigned [.initArraySz] some scan.initArraySize dyns
  finiArray := assigned [.finiArray] (blobAt blob) scan.finiArray dyns
  finiArraySize := assigned [.finiArraySz] some scan.finiArraySize dyns

/-- A variable that only the entries with some of the tags assign to. -/
theorem foldl_scanEntry_get {β : Type} (get : Scan w → β) (tags : List DynTag) (value : Nat → β)
    (h : ∀ scan tag dVal, get (scanEntry memory blob scan ⟨tag, dVal⟩) =
      if tag ∈ tags then value dVal else get scan) (scan : Scan w) (dyns : List LeafDyn) :
    get (dyns.foldl (scanEntry memory blob) scan) = assigned tags value (get scan) dyns := by
  apply foldl_assign (scanEntry memory blob) get _ _ (fun s dyn => ?_)
  rw [h, LeafDyn.hasTag]
  simp only [decide_eq_true_eq]

/-- The scan, variable by variable. -/
theorem scanned_eq (scan : Scan w) (dyns : List LeafDyn) :
    dyns.foldl (scanEntry memory blob) scan = scanned memory blob scan dyns := by
  apply Scan.ext
  case dlHandles =>
    induction dyns generalizing scan with
    | nil => simp [scanned, neededNames]
    | cons dyn dyns ih =>
        rcases dyn with ⟨tag, dVal⟩
        rw [List.foldl_cons, ih]
        cases tag <;> simp [scanned, neededNames, scanEntry, LeafDyn.hasTag]
  all_goals
    apply foldl_scanEntry_get
    intro s tag dVal
    cases tag <;> simp [scanEntry, blobAt]

end Scan

/-! ## The scan and the checks -/

/-- The variables after the scan of the dynamic section of an image. -/
def Image.scan (image : Image cls) (dyns : List LeafDyn) : Scan cls.bits :=
  scanned image.memory image.leaf.blob (Scan.start image.leaf.dlHandles) dyns

/-- The image with the names of the needed libraries. -/
def Image.withNames (image : Image cls) (dyns : List LeafDyn) : Image cls :=
  { image with leaf := { image.leaf with dlHandles := (image.scan dyns).dlHandles } }

/-- The entries that stand at an offset are scanned and checked. -/
theorem scanDynamic_of_dyns {input : Input cls} (image : Image cls) {pos : Nat}
    {dyns : List LeafDyn} (h : DynsAt input pos dyns) :
    scanDynamic input image pos =
      match (image.scan dyns).check with
      | some error => fail error (image.withNames dyns).leaf
      | none => .ok (image.withNames dyns, image.scan dyns) := by
  have hlen : dyns.length < input.bytes.length + 1 :=
    Nat.lt_succ_of_lt (lt_of_le_of_lt (Nat.le_add_left _ _) h.length_lt)
  have hloop : scanLoop input image.memory image.leaf.blob (input.bytes.length + 1) pos
      (Scan.start image.leaf.dlHandles) = .ok (image.scan dyns) :=
    scanLoop_eq_ok.mpr ⟨dyns, hlen, h, (scanned_eq _ _ _ _).symm⟩
  rw [scanDynamic, hloop]
  rfl

/-- Without a `DT_NULL` in the buffer the scan leaves it. -/
theorem scanDynamic_of_not_dyns {input : Input cls} (image : Image cls) {pos : Nat}
    (h : ¬ ∃ dyns, DynsAt input pos dyns) :
    ∃ fault, scanDynamic input image pos = .error (.fault fault) := by
  cases hloop : scanLoop input image.memory image.leaf.blob (input.bytes.length + 1) pos
      (Scan.start image.leaf.dlHandles) with
  | ok scan =>
      rcases scanLoop_eq_ok.mp hloop with ⟨dyns, _, hat, _⟩
      exact absurd ⟨dyns, hat⟩ h
  | error fault =>
      refine ⟨fault, ?_⟩
      rw [scanDynamic, hloop]
      rfl

end AndrLeaf
end KnShim
