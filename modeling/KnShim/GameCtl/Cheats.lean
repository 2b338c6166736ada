import KnShim.AndrLeaf.Symbols
import KnShim.Lib.Cells
import KnShim.Lib.Machine
import KnShim.Lua.Value

/-!
# Cheats — balls, streak and noclip, and the methods of `Level`

The functions of `gamectl.c` that work inside the running game.  They go through `gGame` to the
fields of the player, call methods of `Level`, and swap the first instruction of
`Level::hitSomething` for a return.  Whether noclip is on is read off the instruction that is kept.

`cheats_answers_iff` says that any run of these calls, mixed with the game's own changes, answers as
three variables would, and that no other byte of the game changes, exactly when `hitSomething` does
not begin with a return anyway.
-/

namespace KnShim
namespace GameCtl

open Lib Lua AndrLeaf

/-! ## Where things are -/

/-- The offset of `player` in `Game`, behind twelve pointers. -/
def playerOffset (target : Target) : Nat := 12 * target.wordBytes

/-- The offset of `level` in `Game`. -/
def levelOffset (target : Target) : Nat := 11 * target.wordBytes

/-- The offset of `balls` in `Player`. -/
def ballsOffset : Target → Nat
  | .armv7 => 0x7f4
  | .aarch64 => 0x8bc

/-- The offset of `streak` in `Player`. -/
def streakOffset (target : Target) : Nat := ballsOffset target + 4

/-- `KN_RET`. -/
def knRet : Target → BitVec 32
  | .armv7 => 0xe12fff1e
  | .aarch64 => 0xd65f03c0

/-- The methods of `Level` that scripts may call. -/
inductive LevelMethod where
  | hitSomething
  | streakAbort
  | streakInc
  | addScore
  deriving DecidableEq

def LevelMethod.symbol : LevelMethod → CString
  | .hitSomething => CString.literal "_ZN5Level12hitSomethingEi"
  | .streakAbort => CString.literal "_ZN5Level11streakAbortEi"
  | .streakInc => CString.literal "_ZN5Level9streakIncEi"
  | .addScore => CString.literal "_ZN5Level8addScoreEii"

/-- How many integers a method takes. -/
def LevelMethod.arity : LevelMethod → Nat
  | .addScore => 2
  | _ => 1

/-! ## The functions -/

section Functions

variable {target : Target} (numerals : Numerals) (leaf : Leaf target.wordBits)

/-- The game, and `gNoclipBufferedInstruction`. -/
structure State (target : Target) where
  space : Space target.wordBits
  gNoclipBufferedInstruction : BitVec 32

/-- `*(void **) a`. -/
def readPointer (space : Space target.wordBits) (a : BitVec target.wordBits) :
    Fallible (BitVec target.wordBits) := do
  let v ← space.load a target.wordBytes
  return v.setWidth target.wordBits

/-- `lua_toboolean(script, 1)`. -/
def luaToBool (args : List Value) : Bool := (args.head?.map Value.toBoolean).getD false

/-- `gamectl_get_game`. -/
def gamectlGetGame (space : Space target.wordBits) : Fallible (BitVec target.wordBits) := do
  let ppGame ← leafSymbolAddr leaf (some (CString.literal "gGame"))
  readPointer space ppGame

/-- `gamectl_get_level`. -/
def gamectlGetLevel (space : Space target.wordBits) : Fallible (BitVec target.wordBits) := do
  let game ← gamectlGetGame leaf space
  readPointer space (game + BitVec.ofNat _ (levelOffset target))

/-- The address of a field of `game->player`. -/
def playerField (offset : Nat) (space : Space target.wordBits) :
    Fallible (BitVec target.wordBits) := do
  let game ← gamectlGetGame leaf space
  let player ← readPointer space (game + BitVec.ofNat _ (playerOffset target))
  return player + BitVec.ofNat _ offset

/-- What `knSetBalls` and `knSetStreak` do with their field. -/
def setPlayerField (offset : Nat) (args : List Value) (space : Space target.wordBits) :
    Fallible (Space target.wordBits) := do
  let field ← playerField leaf offset space
  space.write field (toLE 4 (luaToInt numerals target.wordBits args 1).toNat)

/-- What `knGetBalls` and `knGetStreak` do with their field. -/
def getPlayerField (offset : Nat) (space : Space target.wordBits) : Fallible Value := do
  let field ← playerField leaf offset space
  let v ← space.load field 4
  return .ofInteger v

/-- `knSetBalls`. -/
def knSetBalls (args : List Value) (space : Space target.wordBits) :
    Fallible (Space target.wordBits) :=
  setPlayerField numerals leaf (ballsOffset target) args space

/-- `knSetStreak`. -/
def knSetStreak (args : List Value) (space : Space target.wordBits) :
    Fallible (Space target.wordBits) :=
  setPlayerField numerals leaf (streakOffset target) args space

/-- `knGetBalls`. -/
def knGetBalls (space : Space target.wordBits) : Fallible Value :=
  getPlayerField leaf (ballsOffset target) space

/-- `knGetStreak`. -/
def knGetStreak (space : Space target.wordBits) : Fallible Value :=
  getPlayerField leaf (streakOffset target) space

/-- `NOCLIP_IS_ON`. -/
def State.noclipIsOn (s : State target) : Bool := s.gNoclipBufferedInstruction ≠ knRet target

/-- `swap_noclip_state`. -/
def swapNoclipState (s : State target) : Fallible (State target) := do
  let hitSomething ← leafSymbolAddr leaf (some LevelMethod.hitSomething.symbol)
  let currentInstr ← s.space.load hitSomething 4
  let space ← s.space.write hitSomething (toLE 4 s.gNoclipBufferedInstruction.toNat)
  return ⟨space, currentInstr⟩

/-- `knSetNoclip`. -/
def knSetNoclip (args : List Value) (s : State target) : Fallible (State target) :=
  -- swap if states don't match
  if s.noclipIsOn ≠ luaToBool args then swapNoclipState leaf s else return s

/-- `knGetNoclip`. -/
def knGetNoclip (s : State target) : Value := .boolean s.noclipIsOn

/-- A call of a method of `Level`; `first` is the instruction that it begins with. -/
structure MethodCall (target : Target) where
  function : BitVec target.wordBits
  level : BitVec target.wordBits
  args : List (BitVec 32)
  first : BitVec 32
  deriving DecidableEq

/-- `knLevelHitSomething`, `knLevelStreakAbort`, `knLevelStreakInc` and `knLevelAddScore`. -/
def knLevelMethod (method : LevelMethod) (args : List Value) (space : Space target.wordBits) :
    Fallible (MethodCall target) := do
  let function ← leafSymbolAddr leaf (some method.symbol)
  let level ← gamectlGetLevel leaf space
  let first ← space.load function 4
  return ⟨function, level,
    (List.range method.arity).map fun i => luaToInt numerals target.wordBits args (i + 1), first⟩

/-! ## Runs -/

/-- A call from a script, or the game at play. -/
inductive CheatCall where
  | setBalls (args : List Value)
  | getBalls
  | setStreak (args : List Value)
  | getStreak
  | setNoclip (args : List Value)
  | getNoclip
  | method (method : LevelMethod) (args : List Value)
  /-- The game changes the balls and the streak of the player. -/
  | play (balls streak : BitVec 32)

inductive Answer (target : Target) where
  | nothing
  | value (v : Value)
  | called (call : MethodCall target)
  deriving DecidableEq

/-- One call. -/
def cheatStep (s : State target) : CheatCall → Fallible (State target × Answer target)
  | .setBalls args => do
      let space ← knSetBalls numerals leaf args s.space
      return ({ s with space := space }, .nothing)
  | .getBalls => do
      let v ← knGetBalls leaf s.space
      return (s, .value v)
  | .setStreak args => do
      let space ← knSetStreak numerals leaf args s.space
      return ({ s with space := space }, .nothing)
  | .getStreak => do
      let v ← knGetStreak leaf s.space
      return (s, .value v)
  | .setNoclip args => do
      let s ← knSetNoclip leaf args s
      return (s, .nothing)
  | .getNoclip => return (s, .value (knGetNoclip s))
  | .method method args => do
      let call ← knLevelMethod numerals leaf method args s.space
      return (s, .called call)
  | .play balls streak => do
      let field ← playerField leaf (ballsOffset target) s.space
      let space ← s.space.write field (toLE 4 balls.toNat)
      let field ← playerField leaf (streakOffset target) space
      let space ← space.write field (toLE 4 streak.toNat)
      return ({ s with space := space }, .nothing)

/-- The game and its cheats from a memory on; the instruction that is kept is `KN_RET`. -/
def cheatMachine (space : Space target.wordBits) :
    Machine (State target) CheatCall (Answer target) where
  init := ⟨space, knRet target⟩
  step := cheatStep numerals leaf

end Functions

/-! ## What they are for -/

/-- Three variables. -/
structure Cheats where
  balls : BitVec 32
  streak : BitVec 32
  noclip : Bool

variable {target : Target}

/-- Where the running game has what the functions use, and what is there. -/
structure Layout (target : Target) where
  gGame : BitVec target.wordBits
  game : BitVec target.wordBits
  level : BitVec target.wordBits
  player : BitVec target.wordBits
  function : LevelMethod → BitVec target.wordBits
  code : LevelMethod → BitVec 32
  balls : BitVec 32
  streak : BitVec 32

namespace Layout

def ballsAddr (l : Layout target) : BitVec target.wordBits :=
  l.player + BitVec.ofNat _ (ballsOffset target)

def streakAddr (l : Layout target) : BitVec target.wordBits :=
  l.player + BitVec.ofNat _ (streakOffset target)

/-- The bytes that may change: the two fields, and the first instruction of `hitSomething`. -/
def Touched (l : Layout target) (p : BitVec target.wordBits) : Prop :=
  Memory.InRange l.ballsAddr 4 p ∨ Memory.InRange l.streakAddr 4 p ∨
    Memory.InRange (l.function .hitSomething) 4 p

/-- The game is loaded and runs, and its objects do not overlap. -/
structure Loaded (l : Layout target) (leaf : Leaf target.wordBits) (space : Space target.wordBits) :
    Prop where
  gGame : leafSymbolAddr leaf (some (CString.literal "gGame")) = .ok l.gGame
  game : readPointer space l.gGame = .ok l.game
  level : readPointer space (l.game + BitVec.ofNat _ (levelOffset target)) = .ok l.level
  player : readPointer space (l.game + BitVec.ofNat _ (playerOffset target)) = .ok l.player
  balls : space.load l.ballsAddr 4 = .ok l.balls
  streak : space.load l.streakAddr 4 = .ok l.streak
  function : ∀ method, leafSymbolAddr leaf (some (LevelMethod.symbol method)) =
    .ok (l.function method)
  code : ∀ method, space.load (l.function method) 4 = .ok (l.code method)
  pointers : ∀ a ∈ [l.gGame, l.game + BitVec.ofNat _ (levelOffset target),
    l.game + BitVec.ofNat _ (playerOffset target)], ∀ p, Memory.InRange a target.wordBytes p →
      ¬ l.Touched p
  methods : ∀ method, method ≠ .hitSomething → ∀ p, Memory.InRange (l.function method) 4 p →
    ¬ l.Touched p
  ballsApart : Memory.Apart l.ballsAddr 4 (l.function .hitSomething) 4
  streakApart : Memory.Apart l.streakAddr 4 (l.function .hitSomething) 4

/-- The first instruction of a method: noclip lets `hitSomething` return at once. -/
def first (l : Layout target) (c : Cheats) (method : LevelMethod) : BitVec 32 :=
  if method = .hitSomething ∧ c.noclip = true then knRet target else l.code method

/-- The functions on three variables. -/
def spec (l : Layout target) (numerals : Numerals) : Spec Cheats CheatCall (Answer target) where
  init := ⟨l.balls, l.streak, false⟩
  step := fun c call =>
    match call with
    | .setBalls args => ({ c with balls := luaToInt numerals target.wordBits args 1 }, .nothing)
    | .getBalls => (c, .value (.ofInteger c.balls))
    | .setStreak args => ({ c with streak := luaToInt numerals target.wordBits args 1 }, .nothing)
    | .getStreak => (c, .value (.ofInteger c.streak))
    | .setNoclip args => ({ c with noclip := luaToBool args }, .nothing)
    | .getNoclip => (c, .value (.boolean c.noclip))
    | .method method args =>
        (c, .called ⟨l.function method, l.level,
          (List.range method.arity).map fun i => luaToInt numerals target.wordBits args (i + 1),
          l.first c method⟩)
    | .play balls streak => ({ c with balls := balls, streak := streak }, .nothing)

end Layout

/-! ## The invariant -/

variable {numerals : Numerals} {leaf : Leaf target.wordBits} {l : Layout target}
  {space₀ : Space target.wordBits} {s : State target} {c : Cheats}

/-- The fields and the first instruction of `hitSomething` hold the variables, the instruction that
is kept is the other one, and the rest of the game is as it was. -/
structure Tracks (l : Layout target) (space₀ : Space target.wordBits) (s : State target)
    (c : Cheats) : Prop where
  off : space₀.SameOff l.Touched s.space
  balls : s.space.load l.ballsAddr 4 = .ok c.balls
  streak : s.space.load l.streakAddr 4 = .ok c.streak
  hit : s.space.load (l.function .hitSomething) 4 = .ok (l.first c .hitSomething)
  kept : s.gNoclipBufferedInstruction = if c.noclip then l.code .hitSomething else knRet target

theorem four_le_memory (target : Target) : 4 ≤ 2 ^ target.wordBits := by
  cases target <;> decide

theorem wordBytes_le_memory (target : Target) : target.wordBytes ≤ 2 ^ target.wordBits := by
  cases target <;> decide

theorem Layout.fields_apart (l : Layout target) : Memory.Apart l.ballsAddr 4 l.streakAddr 4 :=
  Memory.apart_offsets l.player (Nat.le_refl _) (by cases target <;> decide)

/-- A pointer that is not touched is read as at the start. -/
theorem Tracks.readPointer (h : Tracks l space₀ s c) {a : BitVec target.wordBits}
    (hoff : ∀ p, Memory.InRange a target.wordBytes p → ¬ l.Touched p) :
    GameCtl.readPointer s.space a = GameCtl.readPointer space₀ a := by
  rw [GameCtl.readPointer, GameCtl.readPointer, h.off.load (wordBytes_le_memory target) hoff]

theorem Tracks.game (h : Tracks l space₀ s c) (hl : l.Loaded leaf space₀) :
    gamectlGetGame leaf s.space = .ok l.game := by
  rw [gamectlGetGame, hl.gGame, Fallible.ok_bind,
    h.readPointer (hl.pointers _ (by simp)), hl.game]

theorem Tracks.level (h : Tracks l space₀ s c) (hl : l.Loaded leaf space₀) :
    gamectlGetLevel leaf s.space = .ok l.level := by
  rw [gamectlGetLevel, h.game hl, Fallible.ok_bind, h.readPointer (hl.pointers _ (by simp)),
    hl.level]

theorem Tracks.field (h : Tracks l space₀ s c) (hl : l.Loaded leaf space₀) (offset : Nat) :
    playerField leaf offset s.space = .ok (l.player + BitVec.ofNat _ offset) := by
  rw [playerField, h.game hl, Fallible.ok_bind, h.readPointer (hl.pointers _ (by simp)),
    hl.player]
  rfl

/-- The balls are set, and nothing else. -/
theorem Tracks.setBalls (h : Tracks l space₀ s c) (hl : l.Loaded leaf space₀) (v : BitVec 32) :
    ∃ space, s.space.write l.ballsAddr (toLE 4 v.toNat) = .ok space ∧
      Tracks l space₀ { s with space := space } { c with balls := v } := by
  have hsize := four_le_memory target
  rcases Space.write_number (n := 4) (Space.of_load h.balls).1 hsize v with
    ⟨space, hwrite, hload, hsame⟩
  refine ⟨space, hwrite, h.off.trans (hsame.mono fun p hp => Or.inl hp), hload, ?_, ?_, h.kept⟩
  · rw [← h.streak]
    exact hsame.load hsize (fun p hp hb => l.fields_apart p hb hp)
  · have hfirst : l.first { c with balls := v } .hitSomething = l.first c .hitSomething := rfl
    rw [hfirst, ← h.hit]
    exact hsame.load hsize (fun p hp hb => hl.ballsApart p hb hp)

theorem Tracks.setStreak (h : Tracks l space₀ s c) (hl : l.Loaded leaf space₀) (v : BitVec 32) :
    ∃ space, s.space.write l.streakAddr (toLE 4 v.toNat) = .ok space ∧
      Tracks l space₀ { s with space := space } { c with streak := v } := by
  have hsize := four_le_memory target
  rcases Space.write_number (n := 4) (Space.of_load h.streak).1 hsize v with
    ⟨space, hwrite, hload, hsame⟩
  refine ⟨space, hwrite, h.off.trans (hsame.mono fun p hp => Or.inr (Or.inl hp)), ?_, hload, ?_,
    h.kept⟩
  · rw [← h.balls]
    exact hsame.load hsize (fun p hp hs => l.fields_apart p hp hs)
  · have hfirst : l.first { c with streak := v } .hitSomething = l.first c .hitSomething := rfl
    rw [hfirst, ← h.hit]
    exact hsame.load hsize (fun p hp hs => hl.streakApart p hs hp)

/-- The two instructions change places. -/
theorem Tracks.swap (h : Tracks l space₀ s c) (hl : l.Loaded leaf space₀) :
    ∃ s', swapNoclipState leaf s = .ok s' ∧ Tracks l space₀ s' { c with noclip := !c.noclip } := by
  have hsize := four_le_memory target
  rcases Space.write_number (n := 4) (Space.of_load h.hit).1 hsize s.gNoclipBufferedInstruction with
    ⟨space, hwrite, hload, hsame⟩
  refine ⟨⟨space, l.first c .hitSomething⟩, ?_, ?_, ?_, ?_, ?_, ?_⟩
  · rw [swapNoclipState, hl.function, Fallible.ok_bind, h.hit, Fallible.ok_bind, hwrite]
    rfl
  · exact h.off.trans (hsame.mono fun p hp => Or.inr (Or.inr hp))
  · rw [← h.balls]
    exact hsame.load hsize (fun p hp hb => hl.ballsApart p hp hb)
  · rw [← h.streak]
    exact hsame.load hsize (fun p hp hs => hl.streakApart p hp hs)
  · rw [hload, h.kept, Layout.first]
    cases c.noclip <;> simp
  · rw [Layout.first]
    cases c.noclip <;> simp

/-- Noclip is read off the instruction that is kept when the two can be told apart. -/
theorem Tracks.noclipIsOn (h : Tracks l space₀ s c) (hne : l.code .hitSomething ≠ knRet target) :
    s.noclipIsOn = c.noclip := by
  rw [State.noclipIsOn, h.kept]
  cases c.noclip <;> simp [hne]

/-! ## One call -/

theorem Tracks.setNoclip (h : Tracks l space₀ s c) (hl : l.Loaded leaf space₀)
    (hne : l.code .hitSomething ≠ knRet target) (args : List Value) :
    ∃ s', knSetNoclip leaf args s = .ok s' ∧
      Tracks l space₀ s' { c with noclip := luaToBool args } := by
  rw [knSetNoclip, h.noclipIsOn hne]
  by_cases hsame : c.noclip = luaToBool args
  · refine ⟨s, by rw [if_neg (not_not.mpr hsame), Fallible.pure_eq], ?_⟩
    rw [← hsame]
    exact h
  · rcases h.swap hl with ⟨s', hswap, h'⟩
    refine ⟨s', by rw [if_pos hsame, hswap], ?_⟩
    have hnot : luaToBool args = !c.noclip := Bool.eq_not.mpr (Ne.symm hsame)
    rw [hnot]
    exact h'

theorem Tracks.method (h : Tracks l space₀ s c) (hl : l.Loaded leaf space₀) (method : LevelMethod)
    (args : List Value) :
    knLevelMethod numerals leaf method args s.space = .ok ⟨l.function method, l.level,
      (List.range method.arity).map fun i => luaToInt numerals target.wordBits args (i + 1),
      l.first c method⟩ := by
  have hfirst : s.space.load (l.function method) 4 = .ok (l.first c method) := by
    by_cases hhit : method = .hitSomething
    · rw [hhit]
      exact h.hit
    · rw [h.off.load (four_le_memory target) (hl.methods method hhit), hl.code, Layout.first,
        if_neg (fun hboth => hhit hboth.1)]
  rw [knLevelMethod, hl.function, Fallible.ok_bind, h.level hl, Fallible.ok_bind, hfirst]
  rfl

/-- Each call does on the game what it does on the variables. -/
theorem cheatStep_tracks (hl : l.Loaded leaf space₀) (hne : l.code .hitSomething ≠ knRet target)
    (s : State target) (c : Cheats) (call : CheatCall) (h : Tracks l space₀ s c) :
    ∃ s', cheatStep numerals leaf s call = .ok (s', ((l.spec numerals).step c call).2) ∧
      Tracks l space₀ s' ((l.spec numerals).step c call).1 := by
  cases call with
  | setBalls args =>
      rcases h.setBalls hl (luaToInt numerals target.wordBits args 1) with ⟨space, hwrite, h'⟩
      refine ⟨_, ?_, h'⟩
      rw [cheatStep, knSetBalls, setPlayerField, h.field hl, Fallible.ok_bind]
      exact congrArg (· >>= fun space => pure ({ s with space := space }, Answer.nothing)) hwrite
  | getBalls =>
      refine ⟨s, ?_, h⟩
      rw [cheatStep, knGetBalls, getPlayerField, h.field hl, Fallible.ok_bind]
      exact congrArg (fun v => (v >>= fun v => pure (Value.ofInteger v)) >>= fun v =>
        pure (s, Answer.value v)) h.balls
  | setStreak args =>
      rcases h.setStreak hl (luaToInt numerals target.wordBits args 1) with ⟨space, hwrite, h'⟩
      refine ⟨_, ?_, h'⟩
      rw [cheatStep, knSetStreak, setPlayerField, h.field hl, Fallible.ok_bind]
      exact congrArg (· >>= fun space => pure ({ s with space := space }, Answer.nothing)) hwrite
  | getStreak =>
      refine ⟨s, ?_, h⟩
      rw [cheatStep, knGetStreak, getPlayerField, h.field hl, Fallible.ok_bind]
      exact congrArg (fun v => (v >>= fun v => pure (Value.ofInteger v)) >>= fun v =>
        pure (s, Answer.value v)) h.streak
  | setNoclip args =>
      rcases h.setNoclip hl hne args with ⟨s', hset, h'⟩
      refine ⟨s', ?_, h'⟩
      rw [cheatStep, hset]
      rfl
  | getNoclip =>
      refine ⟨s, ?_, h⟩
      rw [cheatStep, knGetNoclip, h.noclipIsOn hne]
      rfl
  | method method args =>
      refine ⟨s, ?_, h⟩
      rw [cheatStep, h.method hl]
      rfl
  | play balls streak =>
      -- two stores, one after the other
      rcases h.setBalls hl balls with ⟨space, hballs, h₁⟩
      rcases h₁.setStreak hl streak with ⟨space', hstreak, h₂⟩
      refine ⟨_, ?_, h₂⟩
      have hballs' : s.space.write (l.player + BitVec.ofNat _ (ballsOffset target))
          (toLE 4 balls.toNat) = .ok space := hballs
      have hstreak' : space.write (l.player + BitVec.ofNat _ (streakOffset target))
          (toLE 4 streak.toNat) = .ok space' := hstreak
      rw [cheatStep, h.field hl, Fallible.ok_bind, hballs', Fallible.ok_bind, h₁.field hl,
        Fallible.ok_bind, hstreak']
      rfl

/-! ## Runs -/

theorem Layout.Loaded.tracks (hl : l.Loaded leaf space₀) (numerals : Numerals) :
    Tracks l space₀ ⟨space₀, knRet target⟩ (l.spec numerals).init where
  off := Space.SameOff.refl _ _
  balls := hl.balls
  streak := hl.streak
  hit := hl.code .hitSomething
  kept := rfl

/-- The run answers as the variables do, and touches nothing but the two fields and the first
instruction of `hitSomething`. -/
def AnswersAs (numerals : Numerals) (leaf : Leaf target.wordBits) (l : Layout target)
    (space : Space target.wordBits) (calls : List CheatCall) : Prop :=
  ∃ s, (cheatMachine numerals leaf space).run calls =
      .ok (s, (l.spec numerals).answers (l.spec numerals).init calls) ∧
    space.SameOff l.Touched s.space

/-- Where `hitSomething` is a return anyway, noclip is never seen to be on. -/
theorem not_answersAs (hl : l.Loaded leaf space₀) (hret : l.code .hitSomething = knRet target) :
    ¬ AnswersAs numerals leaf l space₀ [.setNoclip [.boolean true], .getNoclip] := by
  rintro ⟨s, hrun, _⟩
  rcases (hl.tracks numerals).swap hl with ⟨s', hswap, h'⟩
  have hset : cheatStep numerals leaf ⟨space₀, knRet target⟩ (.setNoclip [.boolean true]) =
      .ok (s', .nothing) := by
    have hdiffer : (⟨space₀, knRet target⟩ : State target).noclipIsOn ≠
        luaToBool [.boolean true] := by simp [State.noclipIsOn, luaToBool, Value.toBoolean]
    rw [cheatStep, knSetNoclip, if_pos hdiffer, hswap]
    rfl
  -- the instruction that is kept is a return before and after the swap
  have hoff : s'.noclipIsOn = false := by
    rw [State.noclipIsOn, h'.kept]
    simp [Layout.spec, hret]
  have hsecond : cheatStep numerals leaf s' .getNoclip = .ok (s', .value (.boolean false)) := by
    rw [cheatStep, knGetNoclip, hoff]
    rfl
  rw [Machine.run, Machine.runFrom_cons _ hset, Machine.runFrom_cons _ hsecond] at hrun
  cases hrun

/-- In every run the functions answer as three variables and leave the rest of the game alone,
exactly when `hitSomething` does not begin with a return. -/
theorem cheats_answers_iff (numerals : Numerals) (leaf : Leaf target.wordBits)
    (l : Layout target) (space : Space target.wordBits) (hl : l.Loaded leaf space) :
    (∀ calls, AnswersAs numerals leaf l space calls) ↔ l.code .hitSomething ≠ knRet target := by
  constructor
  · intro hall hret
    exact not_answersAs hl hret (hall _)
  · intro hne calls
    rcases Machine.runFrom_refines (M := cheatMachine numerals leaf space) (S := l.spec numerals)
      (R := Tracks l space) (G := fun _ _ => True)
      (fun s c call h _ => cheatStep_tracks hl hne s c call h) calls _ _ (hl.tracks numerals)
      (Spec.admits_of_forall _ _ _ (fun _ _ => trivial)) with ⟨s, hrun, h⟩
    exact ⟨s, hrun, h.off⟩

/-! ## A game -/

/-- A game of zeros but for its pointers. -/
def smallSpace : Space (Target.wordBits .aarch64) where
  bytes := fun p => if p = 0x101 then 0x10 else if p = 0x1059 then 0x20 else
    if p = 0x1061 then 0x30 else 0
  mapped := fun _ => true

def smallLayout : Layout .aarch64 where
  gGame := 0x100
  game := 0x1000
  level := 0x2000
  player := 0x3000
  function
    | .hitSomething => 0x4000
    | .streakAbort => 0x4100
    | .streakInc => 0x4200
    | .addScore => 0x4300
  code := fun _ => 0
  balls := 0
  streak := 0

/-- The names in a row, each with its NUL. -/
def smallNames : List CString :=
  CString.literal "gGame" ::
    [LevelMethod.hitSomething, .streakAbort, .streakInc, .addScore].map LevelMethod.symbol

/-- The symbol table of the game. -/
def smallLeaf : Leaf (Target.wordBits .aarch64) where
  strtab := smallNames.flatMap fun name => name.bytes ++ [0]
  symtab := [⟨0, 0x100⟩, ⟨6, 0x4000⟩, ⟨32, 0x4100⟩, ⟨57, 0x4200⟩, ⟨79, 0x4300⟩]

theorem Layout.off_of_apart (l : Layout target) {a : BitVec target.wordBits} {n : Nat}
    (hballs : Memory.Apart a n l.ballsAddr 4) (hstreak : Memory.Apart a n l.streakAddr 4)
    (hhit : Memory.Apart a n (l.function .hitSomething) 4) :
    ∀ p, Memory.InRange a n p → ¬ l.Touched p := by
  rintro p hp (h | h | h)
  · exact hballs p hp h
  · exact hstreak p hp h
  · exact hhit p hp h

theorem smallLayout_loaded : smallLayout.Loaded smallLeaf smallSpace where
  gGame := by decide +kernel
  game := by decide +kernel
  level := by decide +kernel
  player := by decide +kernel
  balls := by decide +kernel
  streak := by decide +kernel
  function := by
    intro method
    cases method <;> decide +kernel
  code := by
    intro method
    cases method <;> decide +kernel
  pointers := by
    intro a ha
    simp only [List.mem_cons, List.not_mem_nil, or_false] at ha
    rcases ha with rfl | rfl | rfl <;> refine smallLayout.off_of_apart ?_ ?_ ?_ <;>
      exact Memory.apart_of_le_sub (by decide) (by decide)
  methods := by
    intro method hne
    cases method with
    | hitSomething => exact absurd rfl hne
    | _ =>
        refine smallLayout.off_of_apart ?_ ?_ ?_ <;>
          exact Memory.apart_of_le_sub (by decide) (by decide)
  ballsApart := Memory.apart_of_le_sub (by decide) (by decide)
  streakApart := Memory.apart_of_le_sub (by decide) (by decide)

/-- The game of zeros is cheated in every run. -/
theorem cheats_answers_small :
    let numerals : Numerals := ⟨fun _ => CString.empty, fun _ => none, fun _ => .nan, fun _ => 0⟩
    smallLayout.code .hitSomething ≠ knRet .aarch64 ∧
      ∀ calls, AnswersAs numerals smallLeaf smallLayout smallSpace calls :=
  ⟨by decide, (cheats_answers_iff _ smallLeaf smallLayout smallSpace
    smallLayout_loaded).mpr (by decide)⟩

end GameCtl
end KnShim
