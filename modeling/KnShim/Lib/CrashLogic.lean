import KnShim.Lib.Stdio

/-!
# CrashLogic — triples over files, with a condition for a process that is killed

`Triple P m Q C` says: from files in `P`, whatever fails, `m` returns something that satisfies `Q`
together with the files it leaves, or the process is killed and leaves files in `C`.  There is no
other way out.  The rules are those of a Hoare logic in which the crash condition is carried along;
each interaction of `Stdio` has its own.
-/

namespace KnShim
namespace Lib

/-- What the paths lead to. -/
abbrev Files : Type := Path → Option Bytes

namespace Proc

variable {α β : Type}

/-- From files in `P`: a result in `Q`, or a dead process and files in `C`. -/
def Triple (P : Files → Prop) (m : Proc α) (Q : α → Files → Prop) (C : Files → Prop) : Prop :=
  ∀ script w, P w.files →
    (∃ a w', m script w = (.ok a, w') ∧ Q a w'.files) ∨
      ∃ w', m script w = (.error .killed, w') ∧ C w'.files

namespace Triple

variable {P P' : Files → Prop} {m : Proc α} {k : α → Proc β} {Q Q' : α → Files → Prop}
  {R : β → Files → Prop} {C C' : Files → Prop} {f : Files}

/-! ## The rules -/

theorem pure {a : α} (h : ∀ f, P f → Q a f) : Triple P (Pure.pure a) Q C :=
  fun _ w hP => Or.inl ⟨a, w, rfl, h w.files hP⟩

theorem bind (hm : Triple P m Q C) (hk : ∀ a, Triple (Q a) (k a) R C) :
    Triple P (m >>= k) R C := by
  intro script w hP
  rcases hm script w hP with ⟨a, w', hrun, hQ⟩ | ⟨w', hrun, hC⟩
  · rcases hk a script w' hQ with ⟨b, w'', hrest, hR⟩ | ⟨w'', hrest, hC⟩
    · exact Or.inl ⟨b, w'', by rw [bind_ok hrun, hrest], hR⟩
    · exact Or.inr ⟨w'', by rw [bind_ok hrun, hrest], hC⟩
  · exact Or.inr ⟨w', bind_error hrun, hC⟩

theorem conseq (h : Triple P m Q C) (hP : ∀ f, P' f → P f) (hQ : ∀ a f, Q a f → Q' a f)
    (hC : ∀ f, C f → C' f) : Triple P' m Q' C' := by
  intro script w hw
  rcases h script w (hP _ hw) with ⟨a, w', hrun, ha⟩ | ⟨w', hrun, hdead⟩
  · exact Or.inl ⟨a, w', hrun, hQ a _ ha⟩
  · exact Or.inr ⟨w', hrun, hC _ hdead⟩

/-- The rule for a sequence whose first part dies in its own way. -/
theorem seq (hm : Triple P m Q C') (hC : ∀ f, C' f → C f) (hk : ∀ a, Triple (Q a) (k a) R C) :
    Triple P (m >>= k) R C :=
  (hm.conseq (fun _ h => h) (fun _ _ h => h) hC).bind hk

/-- What is known of the result may be used as a fact. -/
theorem of_fact {fact : Prop} (h : fact → Triple P m Q C) :
    Triple (fun f => fact ∧ P f) m Q C :=
  fun script w hP => h hP.1 script w hP.2

/-- What holds before is split. -/
theorem of_or (h : Triple P m Q C) (h' : Triple P' m Q C) : Triple (fun f => P f ∨ P' f) m Q C :=
  fun script w hP => hP.elim (h script w) (h' script w)

/-- One interaction, by its fates. -/
theorem interact {g : Fate → World → Fallible α × World}
    (h : ∀ fate w, P w.files → (∃ a w', g fate w = (.ok a, w') ∧ Q a w'.files) ∨
      ∃ w', g fate w = (.error .killed, w') ∧ C w'.files) : Triple P (Proc.interact g) Q C :=
  fun script w hP => h (script w.clock) (w.later 1) hP

/-! ## The interactions -/

/-- An interaction that leaves the files alone. -/
theorem quiet {g : Fate → World → Fallible α × World} {result : α → Prop}
    (h : ∀ fate w, (∃ a, g fate w = (.ok a, w) ∧ result a) ∨ g fate w = (.error .killed, w)) :
    Triple (fun f' => f' = f) (Proc.interact g) (fun a f' => result a ∧ f' = f) (fun f' => f' = f) :=
  interact fun fate w hP => by
    rcases h fate w with ⟨a, hrun, ha⟩ | hrun
    · exact Or.inl ⟨a, w, hrun, ha, hP⟩
    · exact Or.inr ⟨w, hrun, hP⟩

theorem malloc :
    Triple (fun f' => f' = f) Proc.malloc (fun _ f' => True ∧ f' = f) (fun f' => f' = f) :=
  quiet fun fate w => by
    cases fate with
    | done => exact Or.inl ⟨true, rfl, trivial⟩
    | fails kept => exact Or.inl ⟨false, rfl, trivial⟩
    | dies kept => exact Or.inr rfl

theorem free :
    Triple (fun f' => f' = f) Proc.free (fun _ f' => True ∧ f' = f) (fun f' => f' = f) :=
  quiet fun fate w => by
    cases fate with
    | done => exact Or.inl ⟨(), rfl, trivial⟩
    | fails kept => exact Or.inl ⟨(), rfl, trivial⟩
    | dies kept => exact Or.inr rfl

theorem fcloseRead :
    Triple (fun f' => f' = f) Proc.fcloseRead (fun _ f' => True ∧ f' = f) (fun f' => f' = f) :=
  quiet fun fate w => by
    cases fate with
    | done => exact Or.inl ⟨0, rfl, trivial⟩
    | fails kept => exact Or.inl ⟨-1, rfl, trivial⟩
    | dies kept => exact Or.inr rfl

/-- The stream is at the end of the file, or where it was. -/
theorem fseekEnd (file : ReadStream) :
    Triple (fun f' => f' = f) (Proc.fseekEnd file)
      (fun r f' => (r.2 = { file with pos := file.content.length } ∨ r.2 = file) ∧ f' = f)
      (fun f' => f' = f) :=
  quiet fun fate w => by
    cases fate with
    | done => exact Or.inl ⟨_, rfl, Or.inl rfl⟩
    | fails kept => exact Or.inl ⟨_, rfl, Or.inr rfl⟩
    | dies kept => exact Or.inr rfl

theorem fseekSet (offset : Nat) (file : ReadStream) :
    Triple (fun f' => f' = f) (Proc.fseekSet offset file)
      (fun r f' => (r.2 = { file with pos := offset } ∨ r.2 = file) ∧ f' = f)
      (fun f' => f' = f) :=
  quiet fun fate w => by
    cases fate with
    | done => exact Or.inl ⟨_, rfl, Or.inl rfl⟩
    | fails kept => exact Or.inl ⟨_, rfl, Or.inr rfl⟩
    | dies kept => exact Or.inr rfl

theorem ftell (longMax : Nat) (file : ReadStream) :
    Triple (fun f' => f' = f) (Proc.ftell longMax file)
      (fun r f' => (r = file.pos ∧ file.pos ≤ longMax ∨ r = -1) ∧ f' = f) (fun f' => f' = f) :=
  quiet fun fate w => by
    cases fate with
    | done =>
        by_cases hpos : file.pos ≤ longMax
        · exact Or.inl ⟨file.pos, by simp [hpos], Or.inl ⟨rfl, hpos⟩⟩
        · exact Or.inl ⟨-1, by simp [hpos], Or.inr rfl⟩
    | fails kept => exact Or.inl ⟨-1, rfl, Or.inr rfl⟩
    | dies kept => exact Or.inr rfl

/-- What is read is a part of what is left of the file. -/
theorem fread (count : Nat) (file : ReadStream) :
    Triple (fun f' => f' = f) (Proc.fread count file)
      (fun r f' => r.1 <+: (file.content.drop file.pos).take count ∧ f' = f) (fun f' => f' = f) :=
  quiet fun fate w => by
    cases fate with
    | done => exact Or.inl ⟨_, rfl, List.prefix_rfl⟩
    | fails kept =>
        exact Or.inl ⟨_, rfl, (List.take_prefix _ _).trans (List.dropLast_prefix _)⟩
    | dies kept => exact Or.inr rfl

theorem fopenRead (path : Path) :
    Triple (fun f' => f' = f) (Proc.fopenRead path)
      (fun r f' => (∀ content, r = some content → f path = some content) ∧ f' = f)
      (fun f' => f' = f) :=
  interact fun fate w hw => by
    cases fate with
    | done => exact Or.inl ⟨w.files path, w, rfl, fun content h => by rw [← hw, h], hw⟩
    | fails kept => exact Or.inl ⟨none, w, rfl, fun content h => by (cases h), hw⟩
    | dies kept => exact Or.inr ⟨w, rfl, hw⟩

/-- The file is emptied when it is opened for writing. -/
theorem fopenWrite (path : Path) :
    Triple (fun f' => f' = f) (Proc.fopenWrite path)
      (fun r f' => r = none ∧ f' = f ∨
        r = some ⟨path, []⟩ ∧ f' = Function.update f path (some []))
      (fun f' => f' = f) :=
  interact fun fate w hw => by
    cases fate with
    | done => exact Or.inl ⟨_, w.write path [], rfl, Or.inr ⟨rfl, by rw [← hw]; rfl⟩⟩
    | fails kept => exact Or.inl ⟨none, w, rfl, Or.inl ⟨rfl, hw⟩⟩
    | dies kept => exact Or.inr ⟨w, rfl, hw⟩

/-- A write of single bytes is buffered; only a process that dies in it stores something. -/
theorem fwrite_bytes (data : Bytes) (file : Stream) :
    Triple (fun f' => f' = f) (Proc.fwrite data 1 data.length file)
      (fun r f' => (∃ accepted, accepted <+: data ∧ r = (accepted.length,
        { file with accepted := file.accepted ++ accepted })) ∧ f' = f)
      (fun f' => ∃ kept, f' = Function.update f file.path (some (file.accepted.take kept))) := by
  have hfit : 1 * data.length ≤ data.length := Nat.le_of_eq (Nat.one_mul _)
  rw [Proc.fwrite, if_pos hfit, Nat.one_mul, List.take_length]
  refine interact fun fate w hw => ?_
  cases fate with
  | done => exact Or.inl ⟨_, w, rfl, ⟨data, List.prefix_rfl, rfl⟩, hw⟩
  | fails kept =>
      refine Or.inl ⟨_, w, rfl, ⟨data.dropLast.take kept, ?_, ?_⟩, hw⟩
      · exact (List.take_prefix _ _).trans (List.dropLast_prefix data)
      · rw [Nat.div_one]
  | dies kept => exact Or.inr ⟨_, rfl, kept, by rw [← hw]; rfl⟩

/-- A flush stores what was accepted, or the beginning of it. -/
theorem fclose (file : Stream) :
    Triple (fun f' => f' = f) (Proc.fclose file)
      (fun _ f' => ∃ kept, f' = Function.update f file.path (some (file.accepted.take kept)))
      (fun f' => ∃ kept, f' = Function.update f file.path (some (file.accepted.take kept))) :=
  interact fun fate w hw => by
    cases fate with
    | done =>
        refine Or.inl ⟨_, _, rfl, file.accepted.length, ?_⟩
        rw [List.take_length, ← hw]
        rfl
    | fails kept => exact Or.inl ⟨_, _, rfl, kept, by rw [← hw]; rfl⟩
    | dies kept => exact Or.inr ⟨_, rfl, kept, by rw [← hw]; rfl⟩

/-- A `rename` is atomic. -/
theorem rename (old new : Path) :
    Triple (fun f' => f' = f) (Proc.rename old new)
      (fun r f' => r ≠ 0 ∧ f' = f ∨ r = 0 ∧ ∃ content, f old = some content ∧
        f' = Function.update (Function.update f new (some content)) old none)
      (fun f' => f' = f) :=
  interact fun fate w hw => by
    cases fate with
    | done =>
        cases hfile : w.files old with
        | none => exact Or.inl ⟨-1, w, by simp [hfile], Or.inl ⟨by decide, hw⟩⟩
        | some content =>
            refine Or.inl ⟨0, _, by simp only [hfile]; rfl, Or.inr ⟨rfl, content, ?_, ?_⟩⟩
            · rw [← hw, hfile]
            · rw [← hw]
              rfl
    | fails kept => exact Or.inl ⟨-1, w, rfl, Or.inl ⟨by decide, hw⟩⟩
    | dies kept => exact Or.inr ⟨w, rfl, hw⟩

/-- The file at `old` goes to `new`. -/
theorem renameFile (old new : Path) :
    Triple (fun f' => f' = f) (Proc.renameFile old new)
      (fun r f' => r ≠ 0 ∧ f' = f ∨ r = 0 ∧ ∃ content, f old = some content ∧
        f' = Function.update (Function.update f old none) new (some content))
      (fun f' => f' = f) := by
  by_cases hsame : old = new
  · subst hsame
    rw [Proc.renameFile, if_pos rfl]
    refine interact fun fate w hw => ?_
    cases fate with
    | done =>
        cases hfile : w.files old with
        | none => exact Or.inl ⟨-1, w, by simp [hfile], Or.inl ⟨by decide, hw⟩⟩
        | some content =>
            refine Or.inl ⟨0, w, by simp [hfile], Or.inr ⟨rfl, content, hw ▸ hfile, ?_⟩⟩
            rw [Function.update_idem, ← hfile, ← hw, Function.update_eq_self]
    | fails kept => exact Or.inl ⟨-1, w, rfl, Or.inl ⟨by decide, hw⟩⟩
    | dies kept => exact Or.inr ⟨w, rfl, hw⟩
  · rw [Proc.renameFile, if_neg hsame]
    refine (rename old new).conseq (fun _ h => h) ?_ (fun _ h => h)
    rintro r f' (h | ⟨hr, content, hfile, rfl⟩)
    · exact Or.inl h
    · exact Or.inr ⟨hr, content, hfile, Function.update_comm (Ne.symm hsame) _ _ f⟩

theorem remove (path : Path) :
    Triple (fun f' => f' = f) (Proc.remove path)
      (fun r f' => r ≠ 0 ∧ f' = f ∨ r = 0 ∧ ∃ content, f path = some content ∧
        f' = Function.update f path none)
      (fun f' => f' = f) :=
  interact fun fate w hw => by
    cases fate with
    | done =>
        cases hfile : w.files path with
        | none => exact Or.inl ⟨-1, w, by simp [hfile], Or.inl ⟨by decide, hw⟩⟩
        | some content =>
            refine Or.inl ⟨0, _, by simp only [hfile]; rfl, Or.inr ⟨rfl, content, hw ▸ hfile, ?_⟩⟩
            rw [← hw]
    | fails kept => exact Or.inl ⟨-1, w, rfl, Or.inl ⟨by decide, hw⟩⟩
    | dies kept => exact Or.inr ⟨w, rfl, hw⟩

end Triple

/-! ## Computations that only read -/

/-- `m` leaves the files alone and interacts at most `n` times.  When none of these interactions
fails it computes `x`, unless the process is killed in one of them. -/
def Computes (m : Proc α) (x : Fallible α) (n : Nat) : Prop :=
  ∀ script w, (∀ k < n, ∀ kept, script (w.clock + k) ≠ .fails kept) →
    ∃ w', w'.files = w.files ∧ w.clock ≤ w'.clock ∧ w'.clock ≤ w.clock + n ∧
      (m script w = (x, w') ∨
        m script w = (.error .killed, w') ∧ ∃ k < n, (script (w.clock + k)).Deadly)

namespace Computes

variable {m : Proc α} {x : Fallible α} {f : α → Proc β} {g : α → Fallible β} {n n' : Nat}

theorem lift (x : Fallible α) : Computes (Proc.lift x) x 0 :=
  fun _ w _ => ⟨w, rfl, Nat.le_refl _, Nat.le_refl _, Or.inl rfl⟩

theorem pure (a : α) : Computes (Pure.pure a : Proc α) (.ok a) 0 := lift (.ok a)

theorem mono (h : Computes m x n) (hle : n ≤ n') : Computes m x n' := by
  intro script w hfails
  rcases h script w (fun k hk => hfails k (Nat.lt_of_lt_of_le hk hle)) with
    ⟨w', hfiles, hge, hclock, hrun | ⟨hrun, k, hk, hdead⟩⟩
  · exact ⟨w', hfiles, hge, Nat.le_trans hclock (Nat.add_le_add_left hle _), Or.inl hrun⟩
  · exact ⟨w', hfiles, hge, Nat.le_trans hclock (Nat.add_le_add_left hle _),
      Or.inr ⟨hrun, k, Nat.lt_of_lt_of_le hk hle, hdead⟩⟩

/-- The interactions of the second computation come behind those of the first one. -/
theorem bind (hm : Computes m x n) (hf : ∀ a, x = .ok a → Computes (f a) (g a) n') :
    Computes (m >>= f) (x >>= g) (n' + n) := by
  intro script w hfails
  rcases hm script w (fun k hk => hfails k (Nat.lt_add_left n' hk)) with
    ⟨w₁, hfiles, hge, hclock, hrun | ⟨hrun, k, hk, hdead⟩⟩
  · cases x with
    | error e => exact ⟨w₁, hfiles, hge, by omega, Or.inl (bind_error hrun)⟩
    | ok a =>
        -- the same interactions, counted from the first computation on
        have hshift : ∀ k, w₁.clock + k = w.clock + (w₁.clock - w.clock + k) := by
          intro k
          omega
        have hfails' : ∀ k < n', ∀ kept, script (w₁.clock + k) ≠ .fails kept := by
          intro k hk
          rw [hshift]
          exact hfails _ (by omega)
        rcases hf a rfl script w₁ hfails' with
          ⟨w₂, hfiles', hge', hclock', hrest | ⟨hrest, k, hk, hdead⟩⟩
        · exact ⟨w₂, hfiles'.trans hfiles, by omega, by omega,
            Or.inl ((bind_ok hrun).trans hrest)⟩
        · rw [hshift] at hdead
          exact ⟨w₂, hfiles'.trans hfiles, by omega, by omega,
            Or.inr ⟨(bind_ok hrun).trans hrest, _, by omega, hdead⟩⟩
  · exact ⟨w₁, hfiles, hge, by omega, Or.inr ⟨bind_error hrun, k, by omega, hdead⟩⟩

/-- One interaction that leaves the files alone. -/
theorem interact {g : Fate → World → Fallible α × World} {a : α}
    (hdone : ∀ w, g .done w = (.ok a, w)) (hdies : ∀ kept w, g (.dies kept) w = (.error .killed, w)) :
    Computes (Proc.interact g) (.ok a) 1 := by
  intro script w hfails
  refine ⟨w.later 1, rfl, Nat.le_add_right _ _, Nat.le_refl _, ?_⟩
  cases hfate : script w.clock with
  | done => exact Or.inl ((interact_apply hfate).trans (hdone _))
  | fails kept => exact absurd hfate (hfails 0 Nat.one_pos kept)
  | dies kept =>
      refine Or.inr ⟨(interact_apply hfate).trans (hdies kept _), 0, Nat.one_pos, ?_⟩
      rw [Nat.add_zero, hfate]
      trivial

end Computes

end Proc

end Lib
end KnShim
