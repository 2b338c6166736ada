import KnShim.Lib.Search

/-!
# Lines — a block of lines that a blank line ends

The framing of HTTP and its kind: every line ends in CRLF, and a blank line ends the block.  When no
line is blank or holds a CR, the first blank line is the end of the block, whatever comes behind it.
-/

namespace KnShim
namespace Lib
namespace Lines

open Search

def cr : UInt8 := 0x0d

def lf : UInt8 := 0x0a

def crlf : Bytes := [cr, lf]

/-- The end of a line and a blank line. -/
def blank : Bytes := crlf ++ crlf

/-- The lines, and the blank line. -/
def encode : List Bytes → Bytes
  | [] => crlf
  | line :: lines => line ++ (crlf ++ encode lines)

/-- A line that is not blank and ends where it seems to. -/
structure Plain (line : Bytes) : Prop where
  nonempty : line ≠ []
  noCr : cr ∉ line

variable {line body : Bytes} {lines : List Bytes}

/-- A line ends at the first CRLF. -/
theorem find_crlf (h : cr ∉ line) (rest : Bytes) :
    find crlf (line ++ (crlf ++ rest)) = some line.length :=
  find_at h

/-- There is no blank line where a line begins. -/
theorem find_blank_crlf (h : Plain line) (rest : Bytes) :
    find blank (crlf ++ (line ++ rest)) = (find blank (line ++ rest)).map (· + 2) := by
  rcases h with ⟨hne, hcr⟩
  have hlf : cr ∉ [lf] := by decide
  cases line with
  | nil => exact absurd rfl hne
  | cons b bs =>
      have hb : cr ≠ b := fun heq => hcr (heq ▸ List.mem_cons_self)
      have hnot : ¬ blank <+: cr :: (lf :: (b :: bs ++ rest)) := by
        intro hstart
        have htail : crlf <+: b :: bs ++ rest :=
          (List.cons_prefix_cons.mp (List.cons_prefix_cons.mp hstart).2).2
        exact hb (List.cons_prefix_cons.mp htail).1
      have hstep : find blank (lf :: (b :: bs ++ rest)) = (find blank (b :: bs ++ rest)).map (· + 1) :=
        find_append_of_not_mem hlf
      change find blank (cr :: (lf :: (b :: bs ++ rest))) = _
      rw [find_cons_next hnot, hstep, Option.map_map]
      rfl

/-- The first blank line ends the block. -/
theorem find_blank (h : ∀ line ∈ lines, Plain line) (hne : lines ≠ []) (body : Bytes) :
    ∃ i, find blank (encode lines ++ body) = some i ∧ i + 4 = (encode lines).length := by
  induction lines with
  | nil => exact absurd rfl hne
  | cons line lines ih =>
      have hline : Plain line := h line List.mem_cons_self
      have hlines : ∀ l ∈ lines, Plain l := fun l hl => h l (List.mem_cons_of_mem line hl)
      have hskip : find blank (line ++ (crlf ++ (encode lines ++ body))) =
          (find blank (crlf ++ (encode lines ++ body))).map (· + line.length) :=
        find_append_of_not_mem hline.noCr
      simp only [encode, List.append_assoc]
      rw [hskip]
      cases lines with
      | nil =>
          have hfirst : find blank (crlf ++ (encode [] ++ body)) = some 0 :=
            find_zero ⟨body, rfl⟩
          refine ⟨line.length, by rw [hfirst]; simp, ?_⟩
          simp [encode, crlf]
      | cons next lines =>
          rcases ih hlines (by simp) with ⟨i, hi, hlength⟩
          simp only [encode, List.append_assoc] at hi ⊢
          rw [find_blank_crlf (hlines next List.mem_cons_self), hi]
          refine ⟨i + 2 + line.length, rfl, ?_⟩
          simp only [encode, List.length_append] at hlength ⊢
          simp only [crlf, List.length_cons, List.length_nil] at hlength ⊢
          omega

end Lines

end Lib
end KnShim
