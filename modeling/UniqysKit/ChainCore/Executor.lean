import UniqysKit.Blockchain.Block
import UniqysKit.Library.Runs

/-!
# The executor

`executor.ts`.  A loop hands the block above the last app state to the application and compares what
the application answers with the header of the next block, if that block was in the chain when the
execution began.  An event lets the executor go on from the place where it awaits something, or is a
block that is appended to the chain meanwhile.

A block that comes later is never compared.  `builds_iff` says that this is the only way to build on
an app state that the chain contradicts.
-/

namespace UniqysKit
namespace ChainCore

open Library

/-- The places where the executor awaits something. -/
inductive Execution
  /-- `initialize`: what has come in of the height and of the answer of `connect` -/
  | connecting (height : Option Nat) (appState : Option AppState)
  /-- `initialize`: the header above the app state -/
  | readFirstHeader
  | readHeight
  | readKnownHeight (height : Nat)
  | readBlock (height knownHeight : Nat)
  | executing (height knownHeight : Nat)
  | readNextHeader (appState : AppState) (knownHeight : Nat)
  | failed
  deriving DecidableEq

/-- The executor and the chain. The height that was known when the last app state was obtained is
kept, although the code forgets it. -/
structure Executor where
  chain : List Block
  lastAppState : Option AppState
  knownHeight : Nat
  place : Execution

namespace Executor

inductive Event
  /-- a block is appended to the chain -/
  | append (block : Block)
  /-- what is read from the store comes in -/
  | goOn
  /-- the application answers `connect` or `executeTransactions` -/
  | answer (appState : AppState)
  /-- the application throws -/
  | throws
  /-- the process starts again, with `initialize` -/
  | restart

def init : Executor := ⟨[], none, 0, .connecting none none⟩

def height (executor : Executor) : Nat := executor.chain.length

def blockOf (executor : Executor) (height : Nat) : Option Block :=
  if height = 0 then none else executor.chain[height - 1]?

/-- The check of an app state against the next header, which fails if there is none. -/
def confirms (executor : Executor) (appState : AppState) : Bool :=
  match executor.blockOf (appState.height + 1) with
  | some block => block.header.appStateHash = appState.hash
  | none => false

def fail (executor : Executor) : Executor := { executor with place := .failed }

/-- `initialize` when both answers have come in. -/
def connected (executor : Executor) (height : Nat) (appState : AppState) : Executor :=
  let executor := { executor with lastAppState := some appState, knownHeight := height }
  if appState.height > height then executor.fail
  else if appState.height < height then { executor with place := .readFirstHeader }
  else { executor with place := .readHeight }

/-- The end of `executeBlockTransactions`, after which the loop calls it again. -/
def executed (executor : Executor) (appState : AppState) (knownHeight : Nat) : Executor :=
  { executor with lastAppState := some appState, knownHeight, place := .readHeight }

def goOn (executor : Executor) : Executor :=
  match executor.place, executor.lastAppState with
  | .connecting none none, _ => { executor with place := .connecting (some executor.height) none }
  | .connecting none (some appState), _ => executor.connected executor.height appState
  | .readFirstHeader, some appState =>
      if executor.confirms appState then { executor with place := .readHeight } else executor.fail
  | .readHeight, some appState =>
      if executor.height ≠ appState.height then
        { executor with place := .readKnownHeight (appState.height + 1) }
      else executor
  | .readKnownHeight height, _ => { executor with place := .readBlock height executor.height }
  | .readBlock height knownHeight, _ =>
      match executor.blockOf height with
      | some _ => { executor with place := .executing height knownHeight }
      | none => executor.fail
  | .readNextHeader appState knownHeight, _ =>
      if executor.confirms appState then executor.executed appState knownHeight else executor.fail
  | _, _ => executor

/-- The application has answered. -/
def answer (executor : Executor) (appState : AppState) : Executor :=
  match executor.place with
  | .connecting none none => { executor with place := .connecting none (some appState) }
  | .connecting (some height) none => executor.connected height appState
  | .executing height knownHeight =>
      if appState.height ≠ height then executor.fail
      else if appState.height < knownHeight then
        { executor with place := .readNextHeader appState knownHeight }
      else executor.executed appState knownHeight
  | _ => executor

def step (executor : Executor) : Event → Executor
  | .append block => { executor with chain := executor.chain ++ [block] }
  | .goOn => executor.goOn
  | .answer appState => executor.answer appState
  | .throws =>
      match executor.place with
      | .connecting _ none | .executing _ _ => executor.fail
      | _ => executor
  | .restart => { executor with lastAppState := none, place := .connecting none none }

/-- The block that is handed to the application at an event. -/
def handed (executor : Executor) : Event → Option Block
  | .goOn =>
      match executor.place with
      | .readBlock height _ => executor.blockOf height
      | _ => none
  | _ => none

/-- What is handed to the application is the block above the last app state, and from height 1 on its
header names that app state. -/
def BuildsOnLast (executor : Executor) (event : Event) : Prop :=
  ∀ block, executor.handed event = some block →
    ∃ appState, executor.lastAppState = some appState ∧
      executor.blockOf (appState.height + 1) = some block ∧
      (1 ≤ appState.height → block.header.appStateHash = appState.hash)

/-- A block that came after the height below it was executed, or after `initialize` had read the
height, names the app state of the height below. -/
def LateNames (executor : Executor) (event : Event) : Prop :=
  ∀ block appState, executor.handed event = some block → executor.lastAppState = some appState →
    executor.knownHeight ≤ appState.height → 1 ≤ appState.height →
      block.header.appStateHash = appState.hash

/-! ## What was compared -/

/-- If the next block was known when the last app state was obtained, its header names it. -/
def Compared (executor : Executor) : Prop :=
  ∀ appState, executor.lastAppState = some appState → appState.height < executor.knownHeight →
    executor.confirms appState = true

/-- What holds between two events. -/
def Sound (executor : Executor) : Prop :=
  match executor.place with
  | .readHeight => executor.Compared
  | .readKnownHeight height | .readBlock height _ =>
      executor.Compared ∧ ∃ appState, executor.lastAppState = some appState ∧
        height = appState.height + 1
  | _ => True

section

variable {executor : Executor}

/-- A block that is in the chain stays there. -/
theorem blockOf_append {height : Nat} {block : Block} (added : Block)
    (h : executor.blockOf height = some block) :
    ({ executor with chain := executor.chain ++ [added] } : Executor).blockOf height = some block := by
  unfold blockOf at h ⊢
  split at h
  · cases h
  · rename_i hpos
    rw [if_neg hpos]
    rcases List.getElem?_eq_some_iff.mp h with ⟨hlt, -⟩
    exact (List.getElem?_append_left hlt).trans h

theorem confirms_iff {appState : AppState} :
    executor.confirms appState = true ↔
      ∃ block, executor.blockOf (appState.height + 1) = some block ∧
        block.header.appStateHash = appState.hash := by
  unfold confirms
  cases executor.blockOf (appState.height + 1) with
  | none => simp
  | some block => simp

theorem confirms_append {appState : AppState} (added : Block)
    (h : executor.confirms appState = true) :
    ({ executor with chain := executor.chain ++ [added] } : Executor).confirms appState = true := by
  rcases confirms_iff.mp h with ⟨block, hblock, hhash⟩
  exact confirms_iff.mpr ⟨block, blockOf_append added hblock, hhash⟩

theorem Compared.append (h : executor.Compared) (added : Block) :
    ({ executor with chain := executor.chain ++ [added] } : Executor).Compared := by
  intro appState hlast hlt
  exact confirms_append added (h appState hlast hlt)

/-- When the next block was not known, there is nothing to compare. -/
theorem compared_of_le {appState : AppState} (hlast : executor.lastAppState = some appState)
    (hle : executor.knownHeight ≤ appState.height) : executor.Compared := by
  intro appState' hlast' hlt
  rw [hlast] at hlast'
  cases hlast'
  omega

theorem compared_of_confirms {appState : AppState} (hlast : executor.lastAppState = some appState)
    (h : executor.confirms appState = true) : executor.Compared := by
  intro appState' hlast' _
  rw [hlast] at hlast'
  cases hlast'
  exact h

theorem sound_connected (height : Nat) (appState : AppState) :
    (executor.connected height appState).Sound := by
  unfold connected
  split
  · trivial
  · split
    · trivial
    · rename_i hle hlt
      exact compared_of_le rfl (not_lt.mp hlt)

theorem Sound.goOn (h : executor.Sound) : executor.goOn.Sound := by
  unfold Executor.goOn
  split
  · trivial
  · exact sound_connected _ _
  · rename_i appState hplace hlast
    split
    · rename_i hconfirms
      -- the header above has the state root of the application
      exact compared_of_confirms hlast hconfirms
    · trivial
  · rename_i appState hplace hlast
    unfold Sound at h
    rw [hplace] at h
    split
    -- the next block is the one after the state of the application
    · exact ⟨h, appState, hlast, rfl⟩
    · unfold Sound
      rw [hplace]
      exact h
  · rename_i height hplace
    unfold Sound at h
    rw [hplace] at h
    exact h
  · split
    · trivial
    · trivial
  · split
    · rename_i hconfirms
      exact compared_of_confirms rfl hconfirms
    · trivial
  · exact h

theorem Sound.answer (h : executor.Sound) (appState : AppState) : (executor.answer appState).Sound := by
  unfold Executor.answer
  split
  · trivial
  · exact sound_connected _ _
  · split
    · trivial
    · split
      · trivial
      · rename_i hlt
        exact compared_of_le rfl (not_lt.mp hlt)
  · exact h

theorem Sound.append (h : executor.Sound) (added : Block) :
    ({ executor with chain := executor.chain ++ [added] } : Executor).Sound := by
  unfold Sound at h ⊢
  cases hplace : executor.place with
  | readHeight =>
      rw [hplace] at h
      exact Compared.append h added
  | readKnownHeight height =>
      rw [hplace] at h
      exact ⟨h.1.append added, h.2⟩
  | readBlock height knownHeight =>
      rw [hplace] at h
      exact ⟨h.1.append added, h.2⟩
  | _ => trivial

theorem Sound.step (h : executor.Sound) (event : Event) : (executor.step event).Sound := by
  cases event with
  | append added => exact h.append added
  | goOn => exact h.goOn
  | answer appState => exact h.answer appState
  | throws =>
      unfold Executor.step
      simp only
      split
      · trivial
      · trivial
      · exact h
  | restart => trivial

/-- What is handed over was compared, or came late. -/
theorem Sound.buildsOnLast {event : Event} (h : executor.Sound) (hlate : executor.LateNames event) :
    executor.BuildsOnLast event := by
  intro block hhanded
  have hblock := hhanded
  unfold handed at hblock
  split at hblock
  · split at hblock
    · rename_i height knownHeight hplace
      unfold Sound at h
      rw [hplace] at h
      rcases h with ⟨hcompared, appState, hlast, rfl⟩
      refine ⟨appState, hlast, hblock, ?_⟩
      intro hpos
      by_cases hknown : appState.height < executor.knownHeight
      · rcases confirms_iff.mp (hcompared appState hlast hknown) with ⟨block', hblock', hhash⟩
        rw [hblock] at hblock'
        cases hblock'
        exact hhash
      · exact hlate block appState hhanded hlast (not_lt.mp hknown) hpos
    · cases hblock
  · cases hblock

theorem BuildsOnLast.lateNames {event : Event} (h : executor.BuildsOnLast event) :
    executor.LateNames event := by
  intro block appState hhanded hlast _ hpos
  rcases h block hhanded with ⟨appState', hlast', -, hhash⟩
  rw [hlast] at hlast'
  cases hlast'
  exact hhash hpos

end

/-- In a run the executor always builds on the last app state if and only if every block that came
late names the app state of the height below it. -/
theorem builds_iff (events : List Event) :
    Along step init events BuildsOnLast ↔ Along step init events LateNames := by
  have hsound : Throughout step init events Sound :=
    throughout trivial (fun _ event h => h.step event) events
  constructor
  · intro h before event after hevents
    exact (h before event after hevents).lateNames
  · intro h
    exact hsound.along h fun _ _ hsound hlate => hsound.buildsOnLast hlate

/-! ### A block that comes after the tip was executed -/

/-- A block of height 2 that names some app state. -/
def blockAbove (appStateHash : Hash) : Block :=
  { sampleGenesis with
    header := { sampleGenesis.header with height := 2, height_lt := BlockHeader.two_lt, appStateHash } }

/-- The first block is executed when it is the only one. -/
def tipEvents : List Event :=
  [.append sampleGenesis, .goOn, .answer ⟨0, Hash.zero, soleValidatorSet, Hash.zero⟩, .goOn,
    .goOn, .goOn, .goOn, .answer ⟨1, sampleGenesis.hash .transparent, soleValidatorSet, Hash.zero⟩]

/-- Then a block comes that names another app state. -/
def lateEvents : List Event := tipEvents ++ [.append (blockAbove Hash.zero), .goOn, .goOn]

/-- The second block is handed to the application. -/
theorem builds_on_contradicted : ¬ Along step init (lateEvents ++ [.goOn]) BuildsOnLast := by
  intro h
  have hhanded : (lateEvents.foldl step init).handed .goOn = some (blockAbove Hash.zero) := by
    decide +kernel
  have hstate : (lateEvents.foldl step init).lastAppState =
      some ⟨1, sampleGenesis.hash .transparent, soleValidatorSet, Hash.zero⟩ := by decide +kernel
  rcases h lateEvents .goOn [] rfl _ hhanded with ⟨appState, hsame, -, hhash⟩
  rw [hstate] at hsame
  cases hsame
  exact absurd (hhash le_rfl) (by decide +kernel)

end Executor

end ChainCore
end UniqysKit
