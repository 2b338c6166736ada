import KnShim.Lib.Fallible
import Mathlib.Data.List.Induction

/-!
# LexicalPath — paths with their `.` and `..` resolved

A resolved path is absolute or relative, climbs `ups` levels first, and then goes down along
`names`.  `..` removes the last name; without one it climbs, except at the root.

`Resolved.descend_eq` computes a path that is continued by more components from the path and from
what the components do by themselves, and `below_append_iff` says when the continued path lies below
the path.
-/

namespace KnShim
namespace Lib
namespace LexicalPath

/-- `'/'`. -/
def separator : UInt8 := 0x2f

/-- `"."`. -/
def dot : Bytes := [0x2e]

/-- `".."`. -/
def dotDot : Bytes := [0x2e, 0x2e]

/-- The parts between the separators. -/
def components : Bytes → List Bytes
  | [] => [[]]
  | c :: cs =>
      if c = separator then [] :: components cs
      else
        match components cs with
        | [] => [[c]]
        | part :: parts => (c :: part) :: parts

theorem components_ne_nil (path : Bytes) : components path ≠ [] := by
  cases path with
  | nil => simp [components]
  | cons c cs =>
      rw [components]
      split_ifs
      · simp
      · split <;> simp

/-- A separator separates. -/
theorem components_append (path more : Bytes) :
    components (path ++ separator :: more) = components path ++ components more := by
  induction path with
  | nil => rfl
  | cons c cs ih =>
      rw [List.cons_append, components, components, ih]
      -- the separator ends a component, any other byte prolongs the first one
      by_cases hc : c = separator
      · rw [if_pos hc, if_pos hc]
        rfl
      · rw [if_neg hc, if_neg hc]
        cases hcs : components cs with
        | nil => exact absurd hcs (components_ne_nil cs)
        | cons part parts => rfl

/-- Where a path leads. -/
structure Resolved where
  absolute : Bool
  ups : Nat
  names : List Bytes
  deriving DecidableEq, Repr

namespace Resolved

/-- One more component. -/
def step (r : Resolved) (c : Bytes) : Resolved :=
  if c = [] ∨ c = dot then r
  else if c = dotDot then
    if r.names = [] then { r with ups := if r.absolute then 0 else r.ups + 1 }
    else { r with names := r.names.dropLast }
  else { r with names := r.names ++ [c] }

/-- More components. -/
def descend (r : Resolved) (cs : List Bytes) : Resolved := cs.foldl step r

/-- Where components lead by themselves. -/
def relative (cs : List Bytes) : Resolved := descend ⟨false, 0, []⟩ cs

@[simp] theorem step_absolute (r : Resolved) (c : Bytes) : (r.step c).absolute = r.absolute := by
  unfold step
  split_ifs <;> rfl

@[simp] theorem descend_absolute (r : Resolved) (cs : List Bytes) :
    (r.descend cs).absolute = r.absolute := by
  induction cs generalizing r with
  | nil => rfl
  | cons c cs ih => exact (ih (r.step c)).trans (r.step_absolute c)

theorem descend_append (r : Resolved) (cs ds : List Bytes) :
    r.descend (cs ++ ds) = (r.descend cs).descend ds := List.foldl_append

theorem step_skip (r : Resolved) {c : Bytes} (h : c = [] ∨ c = dot) : r.step c = r := if_pos h

theorem dotDot_not_skipped : ¬ (dotDot = [] ∨ dotDot = dot) := by decide

theorem step_climb {r : Resolved} (h : r.names = []) :
    r.step dotDot = { r with ups := if r.absolute then 0 else r.ups + 1 } := by
  rw [step, if_neg dotDot_not_skipped, if_pos rfl, if_pos h]

theorem step_back {r : Resolved} (h : r.names ≠ []) :
    r.step dotDot = { r with names := r.names.dropLast } := by
  rw [step, if_neg dotDot_not_skipped, if_pos rfl, if_neg h]

theorem step_name (r : Resolved) {c : Bytes} (hskip : ¬ (c = [] ∨ c = dot)) (hup : c ≠ dotDot) :
    r.step c = { r with names := r.names ++ [c] } := by
  rw [step, if_neg hskip, if_neg hup]

/-- Climb `k` levels. -/
def ascend (r : Resolved) (k : Nat) : Resolved where
  absolute := r.absolute
  ups := if r.absolute then 0 else r.ups + (k - r.names.length)
  names := r.names.take (r.names.length - k)

/-- Climbing one level more is one more `..`. -/
theorem ascend_succ (r : Resolved) (k : Nat) : r.ascend (k + 1) = (r.ascend k).step dotDot := by
  -- above the names one climbs further, within them one name is dropped
  by_cases htop : r.names.length ≤ k
  · have hnames : (r.ascend k).names = [] := by
      change r.names.take (r.names.length - k) = []
      rw [Nat.sub_eq_zero_of_le htop, List.take_zero]
    have hmore : k + 1 - r.names.length = k - r.names.length + 1 := Nat.succ_sub htop
    rw [step_climb hnames, ascend, ascend, hmore, Nat.sub_eq_zero_of_le htop,
      Nat.sub_eq_zero_of_le (Nat.le_succ_of_le htop)]
    cases r.absolute <;> rfl
  · have hlt : k < r.names.length := Nat.lt_of_not_le htop
    have hlen : (r.ascend k).names.length = r.names.length - k := by
      change (r.names.take (r.names.length - k)).length = _
      rw [List.length_take, Nat.min_eq_left (Nat.sub_le _ _)]
    have hnames : (r.ascend k).names ≠ [] := by
      intro hnil
      rw [hnil, List.length_nil] at hlen
      omega
    have hdrop : (r.ascend k).names.dropLast = r.names.take (r.names.length - (k + 1)) := by
      change (r.names.take (r.names.length - k)).dropLast = _
      rw [List.dropLast_eq_take, List.take_take, List.length_take]
      congr 1
      omega
    rw [step_back hnames, hdrop, ascend, ascend, Nat.sub_eq_zero_of_le hlt,
      Nat.sub_eq_zero_of_le (Nat.le_of_lt hlt)]

/-- Go down along names. -/
def along (r : Resolved) (names : List Bytes) : Resolved := { r with names := r.names ++ names }

/-- At the root there is nothing to climb to. -/
def Rooted (r : Resolved) : Prop := r.absolute = true → r.ups = 0

/-- A continued path: climb as far as the new components climb, and go down along what is left of
them. -/
theorem descend_eq {r : Resolved} (hr : r.Rooted) (cs : List Bytes) :
    r.descend cs = (r.ascend (relative cs).ups).along (relative cs).names := by
  -- induction from the end, because the last component is resolved last
  induction cs using List.reverseRecOn with
  | nil =>
      cases r with
      | mk absolute ups names =>
          cases absolute with
          | false => simp [descend, relative, ascend, along]
          | true =>
              have hups : ups = 0 := hr rfl
              simp [descend, relative, ascend, along, hups]
  | append_singleton cs c ih =>
      have hrel : relative (cs ++ [c]) = (relative cs).step c := descend_append _ cs [c]
      have hdesc : r.descend (cs ++ [c]) = (r.descend cs).step c := descend_append r cs [c]
      have hfree : (relative cs).absolute = false := descend_absolute _ cs
      rw [hrel, hdesc, ih]
      generalize relative cs = rel at hfree ⊢
      -- the last component stays, climbs, or goes down
      by_cases hskip : c = [] ∨ c = dot
      · rw [step_skip _ hskip, step_skip _ hskip]
      by_cases hup : c = dotDot
      · subst hup
        by_cases hnames : rel.names = []
        · -- the new components climb one level further
          rw [step_climb hnames, hfree, hnames]
          simp only [along, List.append_nil, Bool.false_eq_true, if_false]
          exact (ascend_succ r rel.ups).symm
        -- the new components take back a name of their own
        · have hne : ((r.ascend rel.ups).along rel.names).names ≠ [] := by
            simp [along, hnames]
          rw [step_back hnames, step_back hne]
          simp only [along, List.dropLast_append_of_ne_nil hnames]
      · rw [step_name _ hskip hup, step_name _ hskip hup]
        simp only [along, List.append_assoc]

/-- `.` and `..` never go down. -/
theorem descend_rooted {r : Resolved} (hr : r.Rooted) (cs : List Bytes) : (r.descend cs).Rooted := by
  intro habs
  rw [descend_absolute] at habs
  rw [descend_eq hr]
  simp [along, ascend, habs]

end Resolved

/-- A path that starts with a separator is absolute. -/
def isAbsolute (path : Bytes) : Bool := path.head? == some separator

/-- Resolve a path. -/
def resolve (path : Bytes) : Resolved :=
  Resolved.descend ⟨isAbsolute path, 0, []⟩ (components path)

/-- `path` denotes something below `dir`. -/
def Below (dir path : Bytes) : Prop :=
  (resolve path).absolute = (resolve dir).absolute ∧ (resolve path).ups = (resolve dir).ups ∧
    ∃ more, more ≠ [] ∧ (resolve path).names = (resolve dir).names ++ more

theorem resolve_rooted (path : Bytes) : (resolve path).Rooted :=
  Resolved.descend_rooted (fun _ => rfl) _

/-- How components lead below a path: they climb `k` levels, no further than the path goes down,
and then go down again along the last `k` names of the path and further. -/
def Stays (dir : Bytes) (cs : List Bytes) : Prop :=
  (isAbsolute dir = true ∨ (Resolved.relative cs).ups ≤ (resolve dir).names.length) ∧
    ∃ more, more ≠ [] ∧ (Resolved.relative cs).names =
      (resolve dir).names.drop ((resolve dir).names.length - (Resolved.relative cs).ups) ++ more

/-- A continued path lies below the path exactly when the new components stay below it. -/
theorem below_append_iff {dir : Bytes} (hdir : dir ≠ []) (more : Bytes) :
    Below dir (dir ++ separator :: more) ↔ Stays dir (components more) := by
  -- the path is absolute when `dir` is
  have habs : isAbsolute (dir ++ separator :: more) = isAbsolute dir := by
    cases dir with
    | nil => exact absurd rfl hdir
    | cons c cs => rfl
  have hresolve : resolve (dir ++ separator :: more) =
      ((resolve dir).ascend (Resolved.relative (components more)).ups).along
        (Resolved.relative (components more)).names := by
    rw [resolve, habs, components_append, Resolved.descend_append]
    exact Resolved.descend_eq (resolve_rooted dir) _
  have hsame : (resolve dir).absolute = isAbsolute dir := Resolved.descend_absolute _ _
  rw [Below, hresolve, Stays]
  generalize hrel : Resolved.relative (components more) = rel
  -- the climb stays within `dir`
  have hups : (if (resolve dir).absolute = true then 0
        else (resolve dir).ups + (rel.ups - (resolve dir).names.length)) = (resolve dir).ups ↔
      isAbsolute dir = true ∨ rel.ups ≤ (resolve dir).names.length := by
    rw [hsame]
    by_cases h : isAbsolute dir = true
    · simp only [h, if_true, true_or, iff_true]
      exact (resolve_rooted dir (hsame.trans h)).symm
    · rw [if_neg h, or_iff_right h]
      omega
  -- the names that were left are found again
  have hnames : ∀ rest, (resolve dir).names.take ((resolve dir).names.length - rel.ups) ++
        rel.names = (resolve dir).names ++ rest ↔
      rel.names = (resolve dir).names.drop ((resolve dir).names.length - rel.ups) ++ rest := by
    intro rest
    conv_lhs =>
      rhs
      rw [← List.take_append_drop ((resolve dir).names.length - rel.ups) (resolve dir).names]
    rw [List.append_assoc, List.append_cancel_left_eq]
  simp only [Resolved.along, Resolved.ascend, true_and, hups, hnames]

end LexicalPath
end Lib
end KnShim
