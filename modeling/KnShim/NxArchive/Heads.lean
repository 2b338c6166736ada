import KnShim.NxArchive.Grammar

/-!
# Heads — the loop of `NXExtractArchive`, command by command

`AtHead` follows the loop from one head to the next.  Its invariant is the one that the grammar of
archives needs as well: `At` for the position, and `Ready` for the path.  A command that leads to
another one takes at least eight bytes, which bounds their number.

`extract_heads` puts both together for archives of any content: the loop ends, all of its accesses
are inside the archive and inside `tmp_path`, and what holds at each head.
-/

namespace KnShim
namespace NxArchive

open Lib

/-- Before the command number `n`, the reader is `self` and the path buffer `tmpPath`. -/
inductive AtHead (target : Target) (stack : Fin pathMax → UInt8) (location : CString)
    (buf : Bytes) : Nat → Extractor → Bytes → Prop
  | entry {copied tmpPath : Bytes}
      (copy : strcpyS (List.ofFn stack) pathMax location = .ok (copied, false))
      (slashed : strcatS copied pathMax slash = .ok (tmpPath, false)) :
      AtHead target stack location buf 0 (fromBuffer buf) tmpPath
  | next {n : Nat} {self self' : Extractor} {tmpPath tmpPath' : Bytes} {effect : Option Effect}
      (head : AtHead target stack location buf n self tmpPath)
      (step : command target location.length self tmpPath = .ok (.next self' tmpPath' effect)) :
      AtHead target stack location buf (n + 1) self' tmpPath'

variable {target : Target} {stack : Fin pathMax → UInt8} {location : CString} {buf : Bytes}

/-- What holds before the command number `n`: it has cost eight bytes each time to get there. -/
structure HeadInv (target : Target) (location : CString) (buf : Bytes) (n : Nat) (nx : Extractor)
    (tmpPath : Bytes) : Prop where
  base_eq : nx.base = buf
  there : ∃ rest, nx.At target rest ∧ rest.length + 8 * n ≤ buf.length
  ready : Ready location tmpPath

/-- Copying the location and appending the slash make the path ready. -/
theorem ready_of_entry {copied tmpPath : Bytes}
    (hcopy : strcpyS (List.ofFn stack) pathMax location = .ok (copied, false))
    (hslash : strcatS copied pathMax slash = .ok (tmpPath, false)) : Ready location tmpPath := by
  by_cases hfits : location.length + 2 ≤ pathMax
  · rcases strcpyS_fits stack (Nat.le_of_succ_le hfits) with ⟨dest₁, hcopy₁, hstarts₁, hlen₁⟩
    rcases strcatS_fits (t := slash) hstarts₁ hlen₁ hfits with ⟨dest₂, hcat, hstarts₂, hlen₂⟩
    have hdest₁ : copied = dest₁ := (Prod.mk.inj (Except.ok.inj (hcopy.symm.trans hcopy₁))).1
    subst hdest₁
    have hdest₂ : tmpPath = dest₂ := (Prod.mk.inj (Except.ok.inj (hslash.symm.trans hcat))).1
    subst hdest₂
    exact ⟨hstarts₂, hlen₂⟩
  -- a location that is too long is refused at one of the two steps
  · exfalso
    by_cases hcopied : location.length + 1 ≤ pathMax
    · rcases strcpyS_fits stack hcopied with ⟨dest, hcopy₁, hstarts, hlen⟩
      have hdest : copied = dest := (Prod.mk.inj (Except.ok.inj (hcopy.symm.trans hcopy₁))).1
      subst hdest
      rw [strcatS_long (t := slash) hstarts hlen hfits] at hslash
      exact Bool.noConfusion (Prod.mk.inj (Except.ok.inj hslash)).2
    · rw [strcpyS, if_neg (by decide), if_pos (Nat.lt_of_not_le hcopied)] at hcopy
      exact Bool.noConfusion (Prod.mk.inj (Except.ok.inj hcopy)).2

theorem AtHead.inv {n : Nat} {self : Extractor} {tmpPath : Bytes}
    (hsize : buf.length ≤ target.ptrdiffMax)
    (h : AtHead target stack location buf n self tmpPath) :
    HeadInv target location buf n self tmpPath := by
  -- induction on the commands so far
  induction h with
  | entry copy slashed =>
      exact ⟨rfl, ⟨buf, fromBuffer_at hsize, Nat.le_refl _⟩, ready_of_entry copy slashed⟩
  | next head step ih =>
      rcases ih.there with ⟨rest, hat, hlen⟩
      rcases command_done hat ih.ready with ⟨flow, hflow, hdone⟩
      rw [step] at hflow
      cases hflow
      rcases hdone.shorter with ⟨tail, hat', hbase, hready', hshort⟩
      exact ⟨hbase.trans ih.base_eq, ⟨tail, hat', by omega⟩, hready'⟩

/-- Extraction of any buffer to any location ends without an access outside the buffer or outside
`tmp_path`.  There are at most `size / 4 + 1` commands, each of which returns; before each of them
the position is inside the buffer, and `tmp_path` holds the location, a slash and a NUL. -/
theorem extract_heads (target : Target) (stack : Fin pathMax → UInt8) (location : CString)
    (buf : Bytes) (hsize : buf.length ≤ target.ptrdiffMax) :
    (∃ out, extractArchiveFromBuffer target stack location buf = .ok out) ∧
      ∀ n self tmpPath, AtHead target stack location buf n self tmpPath →
        n ≤ buf.length / 4 ∧ self.base = buf ∧ self.pos ≤ buf.length ∧
          tmpPath.length = pathMax ∧ (∃ rest, tmpPath = location.bytes ++ 0x2f :: 0 :: rest) ∧
          ∃ flow, command target location.length self tmpPath = .ok flow := by
  rcases extract_total target stack location hsize with ⟨effects, error, hrun⟩
  refine ⟨⟨(effects, error), hrun⟩, ?_⟩
  intro n self tmpPath h
  have hinv := h.inv hsize
  rcases hinv.there with ⟨rest, hat, hlen⟩
  rcases hinv.ready.starts with ⟨behind, hbehind⟩
  rcases command_done hat hinv.ready with ⟨flow, hflow, _⟩
  refine ⟨?_, hinv.base_eq, hinv.base_eq ▸ hat.pos_le, hinv.ready.length_eq, ⟨behind, ?_⟩,
    flow, hflow⟩
  · rw [Nat.le_div_iff_mul_le (by decide)]
    calc
      n * 4 ≤ n * 8 := Nat.mul_le_mul_left n (by decide)
      _ = 8 * n := Nat.mul_comm n 8
      _ ≤ rest.length + 8 * n := Nat.le_add_left _ _
      _ ≤ buf.length := hlen
  · calc
      tmpPath = (location.append slash).bytes ++ 0 :: behind := hbehind
      _ = (location.bytes ++ [0x2f]) ++ 0 :: behind := rfl
      _ = location.bytes ++ 0x2f :: 0 :: behind := by rw [List.append_assoc]; rfl

/-- A directory record whose name has size 0, extracted to `d`. -/
theorem extract_heads_no_name :
    let location : CString := ⟨[0x64], by decide⟩
    let buf : Bytes := toLE 4 201 ++ toLE 4 0
    (∃ out, extractArchiveFromBuffer .aarch64 (fun _ => 0xff) location buf = .ok out) ∧
      ∀ n self tmpPath, AtHead .aarch64 (fun _ => 0xff) location buf n self tmpPath →
        n ≤ buf.length / 4 ∧ self.base = buf ∧ self.pos ≤ buf.length ∧
          tmpPath.length = pathMax ∧ (∃ rest, tmpPath = location.bytes ++ 0x2f :: 0 :: rest) ∧
          ∃ flow, command .aarch64 location.length self tmpPath = .ok flow :=
  extract_heads .aarch64 (fun _ => 0xff) ⟨[0x64], by decide⟩ _ (by decide)

end NxArchive
end KnShim
