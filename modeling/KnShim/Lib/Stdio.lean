import KnShim.Lib.Fallible
import Mathlib.Logic.Function.Basic

/-!
# Stdio — files, buffered streams, and how they fail

A `Proc` is a computation over a file system whose every interaction has a `Fate`, read from a
script: it succeeds, it fails, or the process is killed in it.  Streams are buffered: `fwrite` only
accepts bytes, and they reach the file when `fclose` flushes them.  A failing flush, or a process
killed with a stream open, leaves any prefix of the accepted bytes in the file.  All files are
regular ones.

`Proc.Leaves` is the frame rule: which file a computation cannot touch, whatever the script says.
`Proc.OnlyKilled` says that a computation returns unless the process is killed in it.
-/

namespace KnShim
namespace Lib

/-- The bytes of a C string, without the final NUL. -/
abbrev Path : Type := List UInt8

/-- What becomes of one interaction; `kept` bytes of the stream it is about reach the file. -/
inductive Fate where
  | done
  | fails (kept : Nat)
  | dies (kept : Nat)
  deriving DecidableEq, Repr

/-- The process is killed. -/
def Fate.Deadly : Fate → Prop
  | .dies _ => True
  | _ => False

/-- A single failure kills nothing. -/
theorem Fate.not_deadly_once (k kept n : Nat) :
    ¬ (if n = k then Fate.fails kept else .done).Deadly := by
  split <;> exact id

/-- What a write accepts of the bytes that it is given. -/
def Fate.accepts (data : List UInt8) : Fate → List UInt8
  | .done => data
  | .fails kept => data.dropLast.take kept
  | .dies _ => []

theorem Fate.accepts_prefix (fate : Fate) (data : List UInt8) : fate.accepts data <+: data := by
  cases fate with
  | done => exact List.prefix_refl data
  | fails kept => exact (List.take_prefix _ _).trans (List.dropLast_prefix data)
  | dies kept => exact List.nil_prefix

/-- What a flush stores of the bytes that were accepted. -/
def Fate.flushes (accepted : List UInt8) : Fate → List UInt8
  | .done => accepted
  | .fails kept => accepted.take kept
  | .dies kept => accepted.take kept

/-- The fate of each interaction, in order. -/
abbrev Script : Type := Nat → Fate

namespace Script

/-- The script in which nothing fails. -/
def smooth : Script := fun _ => .done

/-- The `n` interactions from `clock` on all succeed. -/
def AllDone (script : Script) (clock n : Nat) : Prop := ∀ k < n, script (clock + k) = .done

theorem allDone_zero (script : Script) (clock : Nat) : script.AllDone clock 0 := by
  intro k hk
  cases hk

theorem allDone_succ {script : Script} {clock n : Nat} :
    script.AllDone clock (n + 1) ↔ script clock = .done ∧ script.AllDone (clock + 1) n := by
  constructor
  · intro h
    refine ⟨h 0 (Nat.succ_pos n), fun k hk => ?_⟩
    have hnext := h (k + 1) (Nat.succ_lt_succ hk)
    rwa [Nat.add_comm k 1, ← Nat.add_assoc] at hnext
  · rintro ⟨hfirst, hrest⟩ k hk
    cases k with
    | zero => exact hfirst
    | succ k =>
        rw [Nat.add_comm k 1, ← Nat.add_assoc]
        exact hrest k (Nat.lt_of_succ_lt_succ hk)

theorem smooth_allDone (clock n : Nat) : smooth.AllDone clock n := fun _ _ => rfl

end Script

/-- The files, and the number of interactions so far. -/
structure World where
  files : Path → Option Bytes
  clock : Nat

namespace World

/-- The world after `n` more interactions. -/
def later (w : World) (n : Nat) : World := { w with clock := w.clock + n }

@[simp] theorem later_clock (w : World) (n : Nat) : (w.later n).clock = w.clock + n := rfl

@[simp] theorem later_later (w : World) (m n : Nat) :
    (w.later m).later n = w.later (m + n) := by
  simp [later, Nat.add_assoc]

/-- The file at `path` becomes `content`. -/
def write (w : World) (path : Path) (content : Bytes) : World :=
  { w with files := Function.update w.files path (some content) }

@[simp] theorem write_clock (w : World) (path : Path) (content : Bytes) :
    (w.write path content).clock = w.clock := rfl

@[simp] theorem write_files_self (w : World) (path : Path) (content : Bytes) :
    (w.write path content).files path = some content :=
  Function.update_self path _ w.files

theorem write_files_ne (w : World) {path p : Path} (content : Bytes) (h : p ≠ path) :
    (w.write path content).files p = w.files p :=
  Function.update_of_ne h _ w.files

end World

/-- A stream open for writing: the bytes that it has accepted. -/
structure Stream where
  path : Path
  accepted : Bytes
  deriving DecidableEq

/-- A stream open for reading: what the file held, and the position. -/
structure ReadStream where
  content : Bytes
  pos : Nat
  deriving DecidableEq

/-- A computation that interacts with the system. -/
def Proc (α : Type) : Type := Script → World → Fallible α × World

namespace Proc

variable {α β : Type}

protected def bind (m : Proc α) (f : α → Proc β) : Proc β := fun script w =>
  match m script w with
  | (.ok a, w') => f a script w'
  | (.error e, w') => (.error e, w')

instance : Monad Proc where
  pure a := fun _ w => (.ok a, w)
  bind := Proc.bind

instance : LawfulMonad Proc := LawfulMonad.mk' Proc
  (by
    intro α m
    funext script w
    change Proc.bind m (fun a => pure (id a)) script w = m script w
    unfold Proc.bind
    rcases m script w with ⟨_ | a, w'⟩ <;> rfl)
  (fun _ _ => rfl)
  (by
    intro α β γ m f g
    funext script w
    change Proc.bind (Proc.bind m f) g script w = Proc.bind m (fun a => Proc.bind (f a) g) script w
    unfold Proc.bind
    rcases m script w with ⟨_ | a, w'⟩ <;> rfl)

/-- A computation that does not interact. -/
def lift (x : Fallible α) : Proc α := fun _ w => (x, w)

/-- One interaction: its fate is the next of the script. -/
def interact (f : Fate → World → Fallible α × World) : Proc α := fun script w =>
  f (script w.clock) (w.later 1)

theorem interact_apply {f : Fate → World → Fallible α × World} {script : Script} {w : World}
    {fate : Fate} (h : script w.clock = fate) : interact f script w = f fate (w.later 1) := by
  rw [interact, h]

@[simp] theorem pure_apply (a : α) (script : Script) (w : World) :
    (pure a : Proc α) script w = (.ok a, w) := rfl

@[simp] theorem lift_apply (x : Fallible α) (script : Script) (w : World) :
    lift x script w = (x, w) := rfl

theorem bind_ok {m : Proc α} {f : α → Proc β} {script : Script} {w w' : World} {a : α}
    (h : m script w = (.ok a, w')) : (m >>= f) script w = f a script w' := by
  change Proc.bind m f script w = _
  simp [Proc.bind, h]

theorem bind_error {m : Proc α} {f : α → Proc β} {script : Script} {w w' : World} {e : Fault}
    (h : m script w = (.error e, w')) : (m >>= f) script w = (.error e, w') := by
  change Proc.bind m f script w = _
  simp [Proc.bind, h]

/-- A sequence that returns is made of two computations that return. -/
theorem bind_eq_ok {m : Proc α} {f : α → Proc β} {script : Script} {w w' : World} {b : β} :
    (m >>= f) script w = (.ok b, w') ↔
      ∃ a w₁, m script w = (.ok a, w₁) ∧ f a script w₁ = (.ok b, w') := by
  cases h : m script w with
  | mk r w₁ =>
      cases r with
      | error e => simp [bind_error h]
      | ok a => simp [bind_ok h]

/-- Run to the end, for what is returned and the world that is left. -/
def run (m : Proc α) (script : Script) (w : World) : Fallible (α × World) :=
  match m script w with
  | (.ok a, w') => .ok (a, w')
  | (.error e, _) => .error e

theorem run_eq_ok {m : Proc α} {script : Script} {w w' : World} {a : α} :
    m.run script w = .ok (a, w') ↔ m script w = (.ok a, w') := by
  cases h : m script w with
  | mk r w₁ =>
      cases r with
      | error e => simp [run, h]
      | ok b => simp [run, h]

/-! ## The frame rule -/

/-- Whatever the script, `m` leaves the file at `p` alone, and what it returns satisfies `Q`. -/
def Leaves (p : Path) (m : Proc α) (Q : α → Prop) : Prop :=
  ∀ script w, (m script w).2.files p = w.files p ∧ ∀ a, (m script w).1 = .ok a → Q a

namespace Leaves

variable {p : Path} {m : Proc α} {f : α → Proc β} {Q : α → Prop} {R : β → Prop}

theorem pure {a : α} (h : Q a) : Leaves p (Pure.pure a : Proc α) Q := by
  intro script w
  refine ⟨rfl, ?_⟩
  intro b hb
  cases hb
  exact h

theorem lift {x : Fallible α} (h : ∀ a, x = .ok a → Q a) : Leaves p (Proc.lift x) Q :=
  fun _ _ => ⟨rfl, h⟩

/-- The rule for a sequence, on one run: the second computation may use how the first one ended. -/
theorem bind_run {script : Script} {w : World} (hm : Leaves p m Q)
    (hf : ∀ a w₁, m script w = (.ok a, w₁) → Q a →
      (f a script w₁).2.files p = w₁.files p ∧ ∀ b, (f a script w₁).1 = .ok b → R b) :
    ((m >>= f) script w).2.files p = w.files p ∧
      ∀ b, ((m >>= f) script w).1 = .ok b → R b := by
  rcases hm script w with ⟨hfiles, hQ⟩
  cases h : m script w with
  | mk r w₁ =>
      rw [h] at hfiles hQ
      -- the second computation runs only when the first one has returned
      cases r with
      | error e =>
          rw [bind_error h]
          exact ⟨hfiles, fun b hb => by cases hb⟩
      | ok a =>
          rw [bind_ok h]
          rcases hf a w₁ h (hQ a rfl) with ⟨hfiles', hR⟩
          exact ⟨hfiles'.trans hfiles, hR⟩

theorem bind (hm : Leaves p m Q) (hf : ∀ a, Q a → Leaves p (f a) R) :
    Leaves p (m >>= f) R :=
  fun script _ => hm.bind_run (fun a w₁ _ ha => hf a ha script w₁)

/-- One interaction leaves a file alone when each of its fates does. -/
theorem interact {g : Fate → World → Fallible α × World}
    (h : ∀ fate w, (g fate w).2.files p = w.files p ∧ ∀ a, (g fate w).1 = .ok a → Q a) :
    Leaves p (Proc.interact g) Q :=
  fun script w => h (script w.clock) (w.later 1)

end Leaves

/-! ## The interactions -/

/-- `malloc`: whether the block was granted. -/
def malloc : Proc Bool := interact fun
  | .done, w => (.ok true, w)
  | .fails _, w => (.ok false, w)
  | .dies _, w => (.error .killed, w)

/-- `free`. -/
def free : Proc Unit := interact fun
  | .dies _, w => (.error .killed, w)
  | _, w => (.ok (), w)

/-- `fopen(path, "wb")`. -/
def fopenWrite (path : Path) : Proc (Option Stream) := interact fun
  | .done, w => (.ok (some ⟨path, []⟩), w.write path [])
  | .fails _, w => (.ok none, w)
  | .dies _, w => (.error .killed, w)

/-- `fopen(path, "rb")` and what the stream then delivers; `none` is `NULL`. -/
def fopenRead (path : Path) : Proc (Option Bytes) := interact fun
  | .done, w => (.ok (w.files path), w)
  | .fails _, w => (.ok none, w)
  | .dies _, w => (.error .killed, w)

/-- `fwrite`: the number of complete items accepted, which is 0 when the items have size 0. -/
def fwrite (buffer : Bytes) (size count : Nat) (file : Stream) : Proc (Nat × Stream) :=
  if size * count ≤ buffer.length then
    interact fun
      | .done, w =>
          (.ok (if size = 0 then 0 else count,
            { file with accepted := file.accepted ++ buffer.take (size * count) }), w)
      | .fails kept, w =>
          -- a failing write accepts less than it was given
          let part := (buffer.take (size * count)).dropLast.take kept
          (.ok (part.length / size, { file with accepted := file.accepted ++ part }), w)
      | .dies kept, w => (.error .killed, w.write file.path (file.accepted.take kept))
  else
    lift (.error .outOfBounds)

/-- `fclose`, which flushes. -/
def fclose (file : Stream) : Proc Int := interact fun
  | .done, w => (.ok 0, w.write file.path file.accepted)
  | .fails kept, w => (.ok (-1), w.write file.path (file.accepted.take kept))
  | .dies kept, w => (.error .killed, w.write file.path (file.accepted.take kept))

/-- `fseek(file, 0, SEEK_END)`. -/
def fseekEnd (file : ReadStream) : Proc (Int × ReadStream) := interact fun
  | .done, w => (.ok (0, { file with pos := file.content.length }), w)
  | .fails _, w => (.ok (-1, file), w)
  | .dies _, w => (.error .killed, w)

/-- `fseek(file, offset, SEEK_SET)`. -/
def fseekSet (offset : Nat) (file : ReadStream) : Proc (Int × ReadStream) := interact fun
  | .done, w => (.ok (0, { file with pos := offset }), w)
  | .fails _, w => (.ok (-1, file), w)
  | .dies _, w => (.error .killed, w)

/-- `ftell`, which fails too where the position is more than `LONG_MAX`. -/
def ftell (longMax : Nat) (file : ReadStream) : Proc Int := interact fun
  | .done, w => (.ok (if file.pos ≤ longMax then file.pos else -1), w)
  | .fails _, w => (.ok (-1), w)
  | .dies _, w => (.error .killed, w)

/-- `fread` of single bytes. -/
def fread (count : Nat) (file : ReadStream) : Proc (Bytes × ReadStream) := interact fun
  | .done, w =>
      let part := (file.content.drop file.pos).take count
      (.ok (part, { file with pos := file.pos + part.length }), w)
  | .fails kept, w =>
      -- a failing read delivers less than it could
      let part := ((file.content.drop file.pos).take count).dropLast.take kept
      (.ok (part, { file with pos := file.pos + part.length }), w)
  | .dies _, w => (.error .killed, w)

/-- `fclose` of a stream that was open for reading. -/
def fcloseRead : Proc Int := interact fun
  | .done, w => (.ok 0, w)
  | .fails _, w => (.ok (-1), w)
  | .dies _, w => (.error .killed, w)

/-- `mkdir`, which leaves the regular files alone. -/
def mkdir : Proc Int := interact fun
  | .done, w => (.ok 0, w)
  | .fails _, w => (.ok (-1), w)
  | .dies _, w => (.error .killed, w)

/-- `rename`, which is atomic. -/
def rename (old new : Path) : Proc Int := interact fun
  | .done, w =>
      match w.files old with
      | some content =>
          (.ok 0, { w.write new content with
            files := Function.update (w.write new content).files old none })
      | none => (.ok (-1), w)
  | .fails _, w => (.ok (-1), w)
  | .dies _, w => (.error .killed, w)

/-- `rename`, which leaves a file alone that is to go where it is. -/
def renameFile (old new : Path) : Proc Int :=
  if old = new then
    interact fun
      | .done, w => (.ok (if (w.files old).isSome then 0 else -1), w)
      | .fails _, w => (.ok (-1), w)
      | .dies _, w => (.error .killed, w)
  else
    rename old new

/-- `remove`. -/
def remove (path : Path) : Proc Int := interact fun
  | .done, w =>
      match w.files path with
      | some _ => (.ok 0, { w with files := Function.update w.files path none })
      | none => (.ok (-1), w)
  | .fails _, w => (.ok (-1), w)
  | .dies _, w => (.error .killed, w)

section Apply

variable {script : Script} {w : World}

theorem malloc_done (h : script w.clock = .done) : malloc script w = (.ok true, w.later 1) := by
  rw [malloc, interact_apply h]

theorem malloc_granted {w' : World} (h : malloc script w = (.ok true, w')) :
    script w.clock = .done ∧ w' = w.later 1 := by
  -- only a granted block lets it return true
  cases hfate : script w.clock with
  | done =>
      rw [malloc_done hfate] at h
      exact ⟨rfl, (Prod.mk.inj h).2.symm⟩
  | fails kept =>
      rw [malloc, interact_apply hfate] at h
      cases h
  | dies kept =>
      rw [malloc, interact_apply hfate] at h
      cases h

theorem free_apply (h : ¬ (script w.clock).Deadly) : free script w = (.ok (), w.later 1) := by
  cases hfate : script w.clock with
  | done => rw [free, interact_apply hfate]
  | fails kept => rw [free, interact_apply hfate]
  | dies kept =>
      rw [hfate] at h
      exact absurd trivial h

theorem free_killed (h : (script w.clock).Deadly) :
    free script w = (.error .killed, w.later 1) := by
  cases hfate : script w.clock with
  | done =>
      rw [hfate] at h
      exact absurd h id
  | fails kept =>
      rw [hfate] at h
      exact absurd h id
  | dies kept => rw [free, interact_apply hfate]

theorem fopenWrite_done (path : Path) (h : script w.clock = .done) :
    fopenWrite path script w = (.ok (some ⟨path, []⟩), (w.write path []).later 1) := by
  rw [fopenWrite, interact_apply h]
  rfl

theorem fopenWrite_opened {path : Path} {file : Stream} {w' : World}
    (h : fopenWrite path script w = (.ok (some file), w')) :
    script w.clock = .done ∧ w'.clock = w.clock + 1 := by
  cases hfate : script w.clock with
  | done =>
      rw [fopenWrite_done path hfate] at h
      exact ⟨rfl, by rw [← (Prod.mk.inj h).2]; rfl⟩
  | fails kept =>
      rw [fopenWrite, interact_apply hfate] at h
      cases h
  | dies kept =>
      rw [fopenWrite, interact_apply hfate] at h
      cases h

theorem fopenRead_done (path : Path) (h : script w.clock = .done) :
    fopenRead path script w = (.ok (w.files path), w.later 1) := by
  rw [fopenRead, interact_apply h]
  rfl

theorem fclose_done (file : Stream) (h : script w.clock = .done) :
    fclose file script w = (.ok 0, (w.write file.path file.accepted).later 1) := by
  rw [fclose, interact_apply h]
  rfl

theorem fclose_fails (file : Stream) {kept : Nat} (h : script w.clock = .fails kept) :
    fclose file script w =
      (.ok (-1), (w.write file.path (file.accepted.take kept)).later 1) := by
  rw [fclose, interact_apply h]
  rfl

theorem fclose_returned {file : Stream} {r : Int} {w' : World}
    (h : fclose file script w = (.ok r, w')) :
    w'.clock = w.clock + 1 ∧ (script w.clock = .done ∨ ∃ kept, script w.clock = .fails kept) := by
  -- a process that dies in `fclose` returns nothing
  cases hfate : script w.clock with
  | done =>
      rw [fclose_done file hfate] at h
      exact ⟨by rw [← (Prod.mk.inj h).2]; rfl, Or.inl rfl⟩
  | fails kept =>
      rw [fclose_fails file hfate] at h
      exact ⟨by rw [← (Prod.mk.inj h).2]; rfl, Or.inr ⟨kept, rfl⟩⟩
  | dies kept =>
      rw [fclose, interact_apply hfate] at h
      cases h

/-- A stream that is not opened leaves the files alone. -/
theorem fopenWrite_fails (path : Path) {kept : Nat} (h : script w.clock = .fails kept) :
    fopenWrite path script w = (.ok none, w.later 1) := by
  rw [fopenWrite, interact_apply h]

/-- A write of single bytes. -/
theorem fwrite_bytes (data : Bytes) (file : Stream) (h : ¬ (script w.clock).Deadly) :
    fwrite data 1 data.length file script w =
      (.ok (((script w.clock).accepts data).length,
        { file with accepted := file.accepted ++ (script w.clock).accepts data }), w.later 1) := by
  have hfit : 1 * data.length ≤ data.length := Nat.le_of_eq (Nat.one_mul _)
  rw [fwrite, if_pos hfit, Nat.one_mul, List.take_length]
  cases hfate : script w.clock with
  | done => exact interact_apply hfate
  | fails kept =>
      rw [interact_apply hfate]
      simp only [Nat.div_one, Fate.accepts]
  | dies kept =>
      rw [hfate] at h
      exact absurd trivial h

theorem fclose_flushes (file : Stream) (h : ¬ (script w.clock).Deadly) :
    ∃ r, fclose file script w =
      (.ok r, (w.write file.path ((script w.clock).flushes file.accepted)).later 1) := by
  cases hfate : script w.clock with
  | done => exact ⟨_, fclose_done file hfate⟩
  | fails kept => exact ⟨_, fclose_fails file hfate⟩
  | dies kept =>
      rw [hfate] at h
      exact absurd trivial h

theorem fseekEnd_done (file : ReadStream) (h : script w.clock = .done) :
    fseekEnd file script w = (.ok (0, { file with pos := file.content.length }), w.later 1) := by
  rw [fseekEnd, interact_apply h]

theorem fseekSet_done (offset : Nat) (file : ReadStream) (h : script w.clock = .done) :
    fseekSet offset file script w = (.ok (0, { file with pos := offset }), w.later 1) := by
  rw [fseekSet, interact_apply h]

theorem ftell_done {longMax : Nat} {file : ReadStream} (hpos : file.pos ≤ longMax)
    (h : script w.clock = .done) : ftell longMax file script w = (.ok file.pos, w.later 1) := by
  rw [ftell, interact_apply h, if_pos hpos]

/-- A read of the whole file. -/
theorem fread_all (content : Bytes) (h : script w.clock = .done) :
    fread content.length ⟨content, 0⟩ script w =
      (.ok (content, ⟨content, content.length⟩), w.later 1) := by
  rw [fread, interact_apply h]
  simp

theorem fcloseRead_apply (h : ¬ (script w.clock).Deadly) :
    ∃ r, fcloseRead script w = (.ok r, w.later 1) := by
  cases hfate : script w.clock with
  | done => exact ⟨_, interact_apply hfate⟩
  | fails kept => exact ⟨_, interact_apply hfate⟩
  | dies kept =>
      rw [hfate] at h
      exact absurd trivial h

theorem fcloseRead_killed (h : (script w.clock).Deadly) :
    fcloseRead script w = (.error .killed, w.later 1) := by
  cases hfate : script w.clock with
  | done =>
      rw [hfate] at h
      exact absurd h id
  | fails kept =>
      rw [hfate] at h
      exact absurd h id
  | dies kept => exact interact_apply hfate

theorem mkdir_apply (h : ¬ (script w.clock).Deadly) :
    ∃ r, mkdir script w = (.ok r, w.later 1) := by
  cases hfate : script w.clock with
  | done => exact ⟨_, interact_apply hfate⟩
  | fails kept => exact ⟨_, interact_apply hfate⟩
  | dies kept =>
      rw [hfate] at h
      exact absurd trivial h

/-- A `rename` that succeeds moves the file. -/
theorem rename_done {old new : Path} {content : Bytes} (h : script w.clock = .done)
    (hold : w.files old = some content) (hne : new ≠ old) :
    ∃ w', rename old new script w = (.ok 0, w') ∧ w'.clock = w.clock + 1 ∧
      w'.files new = some content ∧
      ∀ p, p ≠ old → p ≠ new → w'.files p = w.files p := by
  have hold' : (w.later 1).files old = some content := hold
  refine ⟨{ (w.later 1).write new content with
    files := Function.update ((w.later 1).write new content).files old none }, ?_, rfl, ?_, ?_⟩
  -- the old name is gone, the new one has its content
  · rw [rename, interact_apply h]
    simp only [hold']
  · change Function.update ((w.later 1).write new content).files old none new = _
    rw [Function.update_of_ne hne, World.write_files_self]
  -- no other file is touched
  · intro p hpold hpnew
    change Function.update ((w.later 1).write new content).files old none p = _
    rw [Function.update_of_ne hpold, World.write_files_ne _ _ hpnew]
    rfl

/-- A `rename` that does not succeed changes nothing. -/
theorem rename_not_done (old new : Path) (h : script w.clock ≠ .done) :
    (rename old new script w).2 = w.later 1 ∧ (rename old new script w).1 ≠ .ok 0 := by
  cases hfate : script w.clock with
  | done => exact absurd hfate h
  | fails kept =>
      rw [rename, interact_apply hfate]
      exact ⟨rfl, by simp⟩
  | dies kept =>
      rw [rename, interact_apply hfate]
      exact ⟨rfl, by simp⟩

end Apply

/-! ## What each interaction leaves alone -/

namespace Leaves

variable {p : Path}

theorem malloc : Leaves p Proc.malloc (fun _ => True) :=
  interact fun fate w => by cases fate <;> exact ⟨rfl, fun _ _ => trivial⟩

theorem free : Leaves p Proc.free (fun _ => True) :=
  interact fun fate w => by cases fate <;> exact ⟨rfl, fun _ _ => trivial⟩

theorem fopenWrite {path : Path} (h : p ≠ path) :
    Leaves p (Proc.fopenWrite path) (fun r => ∀ file, r = some file → file = ⟨path, []⟩) :=
  interact fun fate w => by
    cases fate with
    | done =>
        refine ⟨w.write_files_ne [] h, ?_⟩
        intro r hr file hfile
        cases hr
        cases hfile
        rfl
    | fails kept =>
        refine ⟨rfl, ?_⟩
        intro r hr file hfile
        cases hr
        cases hfile
    | dies kept => exact ⟨rfl, fun r hr => by cases hr⟩

theorem fwrite {buffer : Bytes} {size count : Nat} {file : Stream} (h : p ≠ file.path) :
    Leaves p (Proc.fwrite buffer size count file) (fun r => r.2.path = file.path) := by
  unfold Proc.fwrite
  -- accepted bytes are buffered; only a process that dies writes to its own file
  by_cases hsize : size * count ≤ buffer.length
  · rw [if_pos hsize]
    refine interact fun fate w => ?_
    cases fate with
    | done =>
        refine ⟨rfl, ?_⟩
        intro r hr
        cases hr
        rfl
    | fails kept =>
        refine ⟨rfl, ?_⟩
        intro r hr
        cases hr
        rfl
    | dies kept => exact ⟨w.write_files_ne _ h, fun r hr => by cases hr⟩
  · rw [if_neg hsize]
    exact lift (fun r hr => by cases hr)

theorem fclose {file : Stream} (h : p ≠ file.path) :
    Leaves p (Proc.fclose file) (fun _ => True) :=
  interact fun fate w => by
    cases fate <;> exact ⟨w.write_files_ne _ h, fun _ _ => trivial⟩

end Leaves

/-! ## What only dies -/

/-- The only way not to return is to be killed. -/
def OnlyKilled (m : Proc α) : Prop := ∀ script w e, (m script w).1 = .error e → e = .killed

namespace OnlyKilled

variable {m : Proc α} {f : α → Proc β}

theorem pure (a : α) : OnlyKilled (Pure.pure a : Proc α) := by
  intro script w e h
  cases h

theorem bind (hm : OnlyKilled m) (hf : ∀ a, OnlyKilled (f a)) : OnlyKilled (m >>= f) := by
  intro script w e h
  cases hrun : m script w with
  | mk r w₁ =>
      cases r with
      | error e' =>
          rw [bind_error hrun] at h
          cases h
          exact hm script w e (by rw [hrun])
      | ok a =>
          rw [bind_ok hrun] at h
          exact hf a script w₁ e h

theorem interact {g : Fate → World → Fallible α × World}
    (h : ∀ fate w e, (g fate w).1 = .error e → e = .killed) : OnlyKilled (Proc.interact g) :=
  fun script w => h (script w.clock) (w.later 1)

theorem malloc : OnlyKilled Proc.malloc :=
  interact fun fate w e he => by
    cases fate with
    | done => cases he
    | fails kept => cases he
    | dies kept =>
        cases he
        rfl

theorem free : OnlyKilled Proc.free :=
  interact fun fate w e he => by
    cases fate with
    | done => cases he
    | fails kept => cases he
    | dies kept =>
        cases he
        rfl

theorem fopenWrite (path : Path) : OnlyKilled (Proc.fopenWrite path) :=
  interact fun fate w e he => by
    cases fate with
    | done => cases he
    | fails kept => cases he
    | dies kept =>
        cases he
        rfl

theorem fclose (file : Stream) : OnlyKilled (Proc.fclose file) :=
  interact fun fate w e he => by
    cases fate with
    | done => cases he
    | fails kept => cases he
    | dies kept =>
        cases he
        rfl

theorem rename (old new : Path) : OnlyKilled (Proc.rename old new) :=
  interact fun fate w e he => by
    cases fate with
    | done =>
        -- a file that is missing is an error of `rename`, not of the process
        cases hfile : w.files old with
        | none => simp [hfile] at he
        | some content => simp [hfile] at he
    | fails kept => cases he
    | dies kept =>
        cases he
        rfl

end OnlyKilled

end Proc

end Lib
end KnShim
