import UniqysKit.Blockchain.BlockStore
import UniqysKit.ChainCore.EngineFrame
import UniqysKit.Library.Runs

/-!
# Entering a height

`setNewHeight` of the consensus engine, which `start` calls for the app state that the application
was found with and the `executed` event calls for each app state that the application returns.

The first part compares the two callers on one store.  In the second part calls overlap: nobody
awaits them, each awaits the block store twice, and what they do at the end waits for the lock of the
consensus state.
-/

namespace UniqysKit
namespace ChainCore

open Library

/-! ## One call -/

section OneCall

variable (c : Crypto)

def setNewHeight (height : Nat) (appStateHash : Hash) (nextValidatorSet : ValidatorSet)
    (eventTransactionRoot : Hash) (store : BlockStore) (state : State) :
    Result (BlockStore × State) := do
  let store ← store.setValidatorSet c nextValidatorSet
  let validatorSet ← Blockchain.validatorSetOf store height
  let nextValidatorSetRoot ← nextValidatorSet.hash c
  return (store, state.newHeight height appStateHash validatorSet nextValidatorSetRoot
    eventTransactionRoot)

/-- What `start` sets; `validatorSet` is the one that the engine was created with. -/
def startAt (validatorSet : ValidatorSet) (lastAppState : AppState) :
    BlockStore → State → Result (BlockStore × State) :=
  setNewHeight c (lastAppState.height + 1) lastAppState.hash validatorSet (MerkleTree.root c [])

/-- What the listener of `executed` sets. -/
def onExecuted (appState : AppState) : BlockStore → State → Result (BlockStore × State) :=
  setNewHeight c (appState.height + 1) appState.hash appState.nextValidatorSet
    appState.eventTransactionRoot

variable {c}

theorem setNewHeight_eq_ok {height : Nat} {appStateHash eventTransactionRoot : Hash}
    {nextValidatorSet : ValidatorSet} {store store' : BlockStore} {state state' : State} :
    setNewHeight c height appStateHash nextValidatorSet eventTransactionRoot store state =
        .ok (store', state') ↔
      ∃ root validatorSet, nextValidatorSet.hash c = .ok root ∧
        Blockchain.validatorSetOf (store.putValidatorSet root nextValidatorSet) height =
          .ok validatorSet ∧
        store' = store.putValidatorSet root nextValidatorSet ∧
        state' = state.newHeight height appStateHash validatorSet root eventTransactionRoot := by
  unfold setNewHeight BlockStore.setValidatorSet
  cases hhash : nextValidatorSet.hash c with
  | error e => simp [bind, Except.bind]
  | ok root =>
      cases hset : Blockchain.validatorSetOf (store.putValidatorSet root nextValidatorSet) height with
      | error e => simp [bind, Except.bind, pure, Except.pure, hset]
      | ok validatorSet =>
          simp [bind, Except.bind, pure, Except.pure, hset, eq_comm]

/-- The validator set of a height once a set is written: the written one if the header names it. -/
theorem validatorSetOf_putValidatorSet {store : BlockStore} {height : Nat} {header : BlockHeader}
    (hheader : store.header (Blockchain.definingHeight height) = some header) (root : Hash)
    (written : ValidatorSet) :
    Blockchain.validatorSetOf (store.putValidatorSet root written) height =
      if header.nextValidatorSetRoot = root then .ok written
      else store.getValidatorSet header.nextValidatorSetRoot := by
  have hget : (store.putValidatorSet root written).getHeader (Blockchain.definingHeight height) =
      .ok header := BlockStore.getHeader_eq_ok.mpr hheader
  unfold Blockchain.validatorSetOf
  rw [hget]
  by_cases hroot : header.nextValidatorSetRoot = root
  · rw [if_pos hroot]
    refine BlockStore.getValidatorSet_eq_ok.mpr ?_
    rw [hroot, BlockStore.validatorSet_putValidatorSet]
  · rw [if_neg hroot]
    simp only [bind, Except.bind, BlockStore.getValidatorSet,
      BlockStore.validatorSet_putValidatorSet_of_ne hroot]

theorem header_of_validatorSetOf {store : BlockStore} {height : Nat} {validatorSet : ValidatorSet}
    (h : Blockchain.validatorSetOf store height = .ok validatorSet) :
    ∃ header, store.header (Blockchain.definingHeight height) = some header := by
  unfold Blockchain.validatorSetOf at h
  cases hheader : store.getHeader (Blockchain.definingHeight height) with
  | error e =>
      rw [hheader] at h
      cases h
  | ok header => exact ⟨header, BlockStore.getHeader_eq_ok.mp hheader⟩

/-- The consensus state does not depend on what it was before. -/
theorem State.newHeight_eq (state state' : State) (height : Nat) (appStateHash : Hash)
    (validatorSet : ValidatorSet) (nextValidatorSetRoot eventTransactionRoot : Hash) :
    state.newHeight height appStateHash validatorSet nextValidatorSetRoot eventTransactionRoot =
      state'.newHeight height appStateHash validatorSet nextValidatorSetRoot eventTransactionRoot :=
  rfl

/-- A node that starts sets what a node sets that kept running, if and only if the next validator set
of the application is the one that the chain began with and no events are pending. -/
theorem restart_iff (c : Crypto) (initialValidatorSet : ValidatorSet) (appState : AppState)
    (store store' : BlockStore) (state state' expected : State)
    (hexecuted : onExecuted c appState store state = .ok (store', expected)) :
    (∃ store'', startAt c initialValidatorSet appState store state' = .ok (store'', expected)) ↔
      appState.eventTransactionRoot = MerkleTree.root c [] ∧
      initialValidatorSet.hash c = appState.nextValidatorSet.hash c ∧
      (∀ header, store.header (Blockchain.definingHeight (appState.height + 1)) = some header →
        initialValidatorSet.hash c = .ok header.nextValidatorSetRoot →
          initialValidatorSet = appState.nextValidatorSet) := by
  rcases setNewHeight_eq_ok.mp hexecuted with ⟨root, validatorSet, hroot, hset, -, rfl⟩
  rcases header_of_validatorSetOf hset with ⟨header, hheader⟩
  rw [BlockStore.header_putValidatorSet] at hheader
  rw [validatorSetOf_putValidatorSet hheader] at hset
  constructor
  · rintro ⟨store'', hstart⟩
    -- the two states agree, so all that went into them does
    rcases setNewHeight_eq_ok.mp hstart with ⟨root', validatorSet', hroot', hset', -, hstate⟩
    rw [validatorSetOf_putValidatorSet hheader] at hset'
    obtain rfl : root' = root := congrArg State.nextValidatorSetRoot hstate.symm
    obtain rfl : validatorSet' = validatorSet := congrArg State.validatorSet hstate.symm
    refine ⟨congrArg State.eventTransactionRoot hstate, hroot'.trans hroot.symm, ?_⟩
    intro header' hheader' hnamed
    obtain rfl := Option.some.inj (hheader.symm.trans hheader')
    obtain rfl := Except.ok.inj (hroot'.symm.trans hnamed)
    rw [if_pos rfl] at hset hset'
    exact (Except.ok.inj hset').trans (Except.ok.inj hset).symm
  · rintro ⟨hevents, hhash, hnamed⟩
    refine ⟨_, setNewHeight_eq_ok.mpr ⟨root, validatorSet, hhash.trans hroot, ?_, rfl, ?_⟩⟩
    · rw [validatorSetOf_putValidatorSet hheader]
      -- the set of the height is the one just stored, or another one that both find
      by_cases heq : header.nextValidatorSetRoot = root
      · rw [if_pos heq] at hset ⊢
        rw [hnamed header hheader (heq ▸ hhash.trans hroot)]
        exact hset
      · rw [if_neg heq] at hset ⊢
        exact hset
    · rw [hevents]
      exact State.newHeight_eq _ _ _ _ _ _ _

/-! ### Restarting on the sample chain -/

/-- The store of a node that has the first block. -/
def storeWithGenesis : BlockStore :=
  (BlockStore.empty.setHeader 1 sampleGenesis.header).putValidatorSet
    sampleGenesis.header.nextValidatorSetRoot soleValidatorSet

/-- The app state of the first block, without pending events. -/
def firstAppState (nextValidatorSet : ValidatorSet) : AppState :=
  ⟨1, Hash.zero, nextValidatorSet, MerkleTree.root .transparent []⟩

/-- The node that kept running enters height 2, with the validator of the first block. -/
theorem onExecuted_firstAppState {nextValidatorSet : ValidatorSet} {root : Hash}
    (hroot : nextValidatorSet.hash .transparent = .ok root)
    (hnamed : sampleGenesis.header.nextValidatorSetRoot = root → nextValidatorSet = soleValidatorSet)
    (state : State) :
    onExecuted .transparent (firstAppState nextValidatorSet) storeWithGenesis state =
      .ok (storeWithGenesis.putValidatorSet root nextValidatorSet,
        state.newHeight 2 Hash.zero soleValidatorSet root (MerkleTree.root .transparent [])) := by
  refine setNewHeight_eq_ok.mpr ⟨root, soleValidatorSet, hroot, ?_, rfl, rfl⟩
  have hheader : storeWithGenesis.header (Blockchain.definingHeight
      ((firstAppState nextValidatorSet).height + 1)) = some sampleGenesis.header := rfl
  rw [validatorSetOf_putValidatorSet hheader]
  split
  · rename_i heq
    rw [← hnamed heq]
    rfl
  · exact BlockStore.getValidatorSet_eq_ok.mpr BlockStore.validatorSet_putValidatorSet

/-- With the validator set of the first block the two agree. -/
theorem restart_unchanged :
    ∃ store expected, onExecuted .transparent (firstAppState soleValidatorSet) storeWithGenesis
        (State.new .transparent) = .ok (store, expected) ∧
      ∃ store', startAt .transparent soleValidatorSet (firstAppState soleValidatorSet)
        storeWithGenesis (State.new .transparent) = .ok (store', expected) := by
  have hroot : soleValidatorSet.hash .transparent = .ok sampleGenesis.header.nextValidatorSetRoot := by
    decide +kernel
  have hexecuted := onExecuted_firstAppState hroot (fun _ => rfl) (State.new .transparent)
  exact ⟨_, _, hexecuted, (restart_iff _ soleValidatorSet _ _ _ _ _ _ hexecuted).mpr
    ⟨rfl, rfl, fun _ _ _ => rfl⟩⟩

/-- Another validator. -/
def laterValidatorSet : ValidatorSet := ⟨[⟨(Consensus.sampleKey 2).address .transparent, 10⟩]⟩

/-- Once the application has set another validator set, a node that restarts is at odds with a node
that kept running. -/
theorem restart_forgets_validators :
    ∃ store expected, onExecuted .transparent (firstAppState laterValidatorSet) storeWithGenesis
        (State.new .transparent) = .ok (store, expected) ∧
      ¬ ∃ store', startAt .transparent soleValidatorSet (firstAppState laterValidatorSet)
        storeWithGenesis (State.new .transparent) = .ok (store', expected) := by
  have hroot : ∃ root, laterValidatorSet.hash .transparent = .ok root ∧
      sampleGenesis.header.nextValidatorSetRoot ≠ root ∧
      soleValidatorSet.hash .transparent ≠ .ok root :=
    ⟨_, rfl, by decide +kernel, by decide +kernel⟩
  rcases hroot with ⟨root, hroot, hne, hsole⟩
  refine ⟨_, _, onExecuted_firstAppState hroot (fun heq => absurd heq hne) _, ?_⟩
  rintro ⟨store', hstart⟩
  rcases setNewHeight_eq_ok.mp hstart with ⟨root', validatorSet, hroot', -, -, hstate⟩
  obtain rfl : root = root' := congrArg State.nextValidatorSetRoot hstate
  exact hsole hroot'

end OneCall

/-! ## Overlapping calls -/

/-- The height that a task enters. -/
def Task.height : Task → Nat
  | .newHeight height _ _ _ => height
  | _ => 0

/-- A call of `setNewHeight` that awaits the block store: first the write of the next validator set,
then the validator set of the height. -/
structure HeightCall where
  appState : AppState
  nextValidatorSetRoot : Hash
  written : Bool

def HeightCall.height (call : HeightCall) : Nat := call.appState.height + 1

/-- The engine with the calls in flight, in the order in which they were made.  `taken` lists the
heights whose calls have got all that they await; no code reads it. -/
structure HeightCalls where
  engine : Engine
  calls : List HeightCall
  taken : List Nat

namespace HeightCalls

inductive Event
  /-- the executor emits `executed` -/
  | executed (appState : AppState)
  /-- a call gets what it awaits -/
  | goOn (i : Nat)
  /-- the block store rejects what a call awaits -/
  | reject (i : Nat)
  /-- other code of the engine -/
  | engine (event : ChainCore.Event)

variable (c : Crypto) (config : Config) (validatorSetOf : Nat → ValidatorSet)

def init (initialValidatorSet : ValidatorSet) : HeightCalls :=
  ⟨Engine.new c initialValidatorSet, [], []⟩

/-- A call goes on. At its end it sets the validator set of the engine and queues for the lock. -/
def goOn (s : HeightCalls) (i : Nat) (call : HeightCall) : HeightCalls :=
  if call.written then
    { engine := s.engine.step c config (.setNewHeight call.height call.appState.hash
        (validatorSetOf call.height) call.nextValidatorSetRoot call.appState.eventTransactionRoot)
      calls := s.calls.eraseIdx i
      taken := s.taken ++ [call.height] }
  else { s with calls := s.calls.set i { call with written := true } }

def step (s : HeightCalls) : Event → HeightCalls
  | .executed appState =>
      match appState.nextValidatorSet.hash c with
      | .ok root => { s with calls := s.calls ++ [⟨appState, root, false⟩] }
      | .error _ => s
  | .goOn i =>
      match s.calls[i]? with
      | some call => s.goOn c config validatorSetOf i call
      | none => s
  | .reject i => { s with calls := s.calls.eraseIdx i }
  | .engine event =>
      match event with
      | .setNewHeight .. => s
      | event => { s with engine := s.engine.step c config event }

/-- The heights that were entered increase, and each was entered with its validator set. -/
structure Forward (s : HeightCalls) : Prop where
  increasing : (s.engine.enteredHeights.map Prod.fst).Pairwise (· < ·)
  validatorSet : ∀ entry ∈ s.engine.enteredHeights, 1 ≤ entry.1 → entry.2 = validatorSetOf entry.1

/-- When a call has got all that it awaits, no call for a later height has before, and the heights
that still wait for the lock have the same validator set. -/
def Orderly (s : HeightCalls) (event : Event) : Prop :=
  ∀ i call, event = .goOn i → s.calls[i]? = some call → call.written = true →
    (∀ height ∈ s.taken, height < call.height) ∧
    ∀ task ∈ s.engine.pendingHeights, validatorSetOf task.height = validatorSetOf call.height

/-- The tasks enter the heights that were taken, in their order, and with the validator set that the
engine has by then. -/
structure Inv (s : HeightCalls) : Prop where
  order : s.engine.enteredHeights.map Prod.fst ++ s.engine.pendingHeights.map Task.height =
    0 :: s.taken
  increasing : (0 :: s.taken).Pairwise (· < ·)
  pending : ∀ task ∈ s.engine.pendingHeights, s.engine.validatorSet = validatorSetOf task.height
  entered : ∀ entry ∈ s.engine.enteredHeights, 1 ≤ entry.1 → entry.2 = validatorSetOf entry.1

variable {c config validatorSetOf} {s : HeightCalls}

theorem Inv.forward (h : Inv validatorSetOf s) : Forward validatorSetOf s := by
  refine ⟨?_, h.entered⟩
  have hall := h.increasing
  rw [← h.order] at hall
  exact (List.pairwise_append.mp hall).1

theorem inv_init (initialValidatorSet : ValidatorSet) :
    Inv validatorSetOf (init c initialValidatorSet) where
  order := rfl
  increasing := by simp [init]
  pending := nofun
  entered := by
    intro entry hmem hpos
    obtain rfl : entry = (0, ⟨[]⟩) := List.mem_singleton.mp hmem
    omega

theorem heights_eq_iff {engine : Engine} {validatorSet : ValidatorSet} {pending : List Task}
    {entered : List (Nat × ValidatorSet)} :
    engine.heights = (validatorSet, pending, entered) ↔
      engine.validatorSet = validatorSet ∧ engine.pendingHeights = pending ∧
        engine.enteredHeights = entered := by
  simp [Engine.heights]

section

variable {s' : HeightCalls} (h : Inv validatorSetOf s)

include h

theorem Inv.of_heights (hheights : s'.engine.heights = s.engine.heights)
    (htaken : s'.taken = s.taken) : Inv validatorSetOf s' := by
  rcases heights_eq_iff.mp hheights with ⟨hset, hpending, hentered⟩
  constructor
  · rw [hpending, hentered, htaken]
    exact h.order
  · rw [htaken]
    exact h.increasing
  · rw [hpending, hset]
    exact h.pending
  · rw [hentered]
    exact h.entered

/-- A call has got all that it awaits. -/
theorem Inv.take {task : Task}
    (hheights : s'.engine.heights = (validatorSetOf task.height,
      s.engine.pendingHeights ++ [task], s.engine.enteredHeights))
    (htaken : s'.taken = s.taken ++ [task.height]) (hpos : 0 < task.height)
    (hlater : ∀ height ∈ s.taken, height < task.height)
    (hsame : ∀ waiting ∈ s.engine.pendingHeights,
      validatorSetOf waiting.height = validatorSetOf task.height) : Inv validatorSetOf s' := by
  rcases heights_eq_iff.mp hheights with ⟨hset, hpending, hentered⟩
  constructor
  · rw [hpending, hentered, htaken, List.map_append, ← List.append_assoc, h.order]
    rfl
  · rw [htaken, ← List.cons_append]
    -- the height that is taken now is above all that were taken before
    refine List.pairwise_append.mpr ⟨h.increasing, List.pairwise_singleton _ _, ?_⟩
    intro height hmem later hlast
    rw [List.mem_singleton.mp hlast]
    rcases List.mem_cons.mp hmem with rfl | hmem
    · exact hpos
    · exact hlater height hmem
  · intro waiting hmem
    rw [hset]
    rw [hpending] at hmem
    rcases List.mem_append.mp hmem with hmem | hmem
    · exact (hsame waiting hmem).symm
    · rw [List.mem_singleton.mp hmem]
  · rw [hentered]
    exact h.entered

/-- The first task in the queue gets the lock. -/
theorem Inv.enter {task : Task} {rest : List Task} (hpending : s.engine.pendingHeights = task :: rest)
    (hheights : s'.engine.heights = (s.engine.validatorSet, rest,
      s.engine.enteredHeights ++ [(task.height, s.engine.validatorSet)]))
    (htaken : s'.taken = s.taken) : Inv validatorSetOf s' := by
  rcases heights_eq_iff.mp hheights with ⟨hset, hrest, hentered⟩
  have horder := h.order
  have hwaiting := h.pending
  rw [hpending] at horder hwaiting
  constructor
  · rw [hrest, hentered, htaken, ← horder]
    simp
  · rw [htaken]
    exact h.increasing
  · rw [hrest, hset]
    exact fun waiting hmem => hwaiting waiting (List.mem_cons_of_mem _ hmem)
  · intro entry hmem hpos
    rw [hentered] at hmem
    rcases List.mem_append.mp hmem with hmem | hmem
    · exact h.entered entry hmem hpos
    · rw [List.mem_singleton.mp hmem]
      exact hwaiting task List.mem_cons_self

theorem Inv.goOn {i : Nat} {call : HeightCall}
    (horderly : call.written = true → (∀ height ∈ s.taken, height < call.height) ∧
      ∀ task ∈ s.engine.pendingHeights, validatorSetOf task.height = validatorSetOf call.height) :
    Inv validatorSetOf (s.goOn c config validatorSetOf i call) := by
  unfold HeightCalls.goOn
  split
  · rename_i hwritten
    rcases horderly hwritten with ⟨hlater, hsame⟩
    let task : Task := .newHeight call.height call.appState.hash call.nextValidatorSetRoot
      call.appState.eventTransactionRoot
    exact @Inv.take _ _ _ h task (@heights_setNewHeight c config _ _ _ _ _ _) rfl
      (Nat.succ_pos _) hlater hsame
  · exact h.of_heights rfl rfl

theorem Inv.step (event : Event) (horderly : Orderly validatorSetOf s event) :
    Inv validatorSetOf (s.step c config validatorSetOf event) := by
  cases event with
  | executed appState =>
      unfold HeightCalls.step
      simp only
      split
      · exact h.of_heights rfl rfl
      · exact h
  | goOn i =>
      unfold HeightCalls.step
      simp only
      split
      · rename_i call hcall
        exact h.goOn fun hwritten => horderly i call rfl hcall hwritten
      · exact h
  | reject i => exact h.of_heights rfl rfl
  | engine event =>
      unfold HeightCalls.step
      simp only
      split
      · exact h
      · rename_i hevent
        -- only the task of a new height changes what the invariant speaks of
        rcases @heights_step c config s.engine event hevent with
          ⟨_, _, _, _, _, hpending, hheights⟩ | hheights
        · exact h.enter hpending hheights rfl
        · exact h.of_heights hheights rfl

end

/-- In a run in which the calls get what they await in the order of their heights, and none passes a
height with another validator set that waits for the lock, the consensus heights move forward. -/
theorem heights_forward (c : Crypto) (config : Config) (validatorSetOf : Nat → ValidatorSet)
    (initialValidatorSet : ValidatorSet) (events : List Event)
    (horderly : Along (step c config validatorSetOf) (init c initialValidatorSet) events
      (Orderly validatorSetOf)) :
    Throughout (step c config validatorSetOf) (init c initialValidatorSet) events
      (Forward validatorSetOf) := by
  have hinit : Inv validatorSetOf (init c initialValidatorSet) := inv_init initialValidatorSet
  have hinv := horderly.throughout hinit
    fun s event hinv horderly => hinv.step event horderly
  intro before after hevents
  exact (hinv before after hevents).forward

/-! ### Two app states -/

def quietConfig : Config := ⟨sampleGenesis, none, 0⟩

def noWorld : World := ⟨fun height => BlockStore.empty.getHeader height, 0⟩

def appStateOf (height : Nat) : AppState := ⟨height, Hash.zero, soleValidatorSet, Hash.zero⟩

/-- The engine gets the lock for the tasks that wait. -/
def acquireTwice : List Event := [.engine (.acquire noWorld), .engine (.acquire noWorld)]

/-- The calls for two app states get what they await in order. -/
def inOrder : List Event :=
  [.executed (appStateOf 1), .executed (appStateOf 2), .goOn 0, .goOn 0, .goOn 0, .goOn 0] ++
    acquireTwice

/-- The second call is faster. -/
def outOfOrder : List Event :=
  [.executed (appStateOf 1), .executed (appStateOf 2), .goOn 1, .goOn 1, .goOn 0, .goOn 0] ++
    acquireTwice

theorem heights_forward_inOrder :
    ((inOrder.foldl (step .transparent quietConfig fun _ => soleValidatorSet)
      (init .transparent soleValidatorSet)).engine.enteredHeights.map Prod.fst = [0, 2, 3]) ∧
    Throughout (step .transparent quietConfig fun _ => soleValidatorSet)
      (init .transparent soleValidatorSet) inOrder (Forward fun _ => soleValidatorSet) := by
  have hcheck : ∀ before ∈ inOrder.inits,
      let s := before.foldl (step .transparent quietConfig fun _ => soleValidatorSet)
        (init .transparent soleValidatorSet)
      ∀ call ∈ s.calls[0]?, ∀ height ∈ s.taken, call.written = true → height < call.height := by
    decide +kernel
  refine ⟨by decide +kernel, heights_forward _ _ _ _ _ ?_⟩
  intro before event after hevents i call hevent hcall hwritten
  obtain rfl : i = 0 := by
    have hmem : Event.goOn i ∈ inOrder := by simp [hevents, hevent]
    simpa [inOrder, acquireTwice] using hmem
  exact ⟨fun height hmem => hcheck before (by simp [hevents]) call hcall height hmem hwritten,
    fun _ _ => rfl⟩

/-- Height 3 is entered before height 2. -/
theorem heights_go_back :
    ¬ Forward (fun _ => soleValidatorSet)
      (outOfOrder.foldl (step .transparent quietConfig fun _ => soleValidatorSet)
        (init .transparent soleValidatorSet)) := by
  have hheights : (outOfOrder.foldl (step .transparent quietConfig fun _ => soleValidatorSet)
      (init .transparent soleValidatorSet)).engine.enteredHeights.map Prod.fst = [0, 3, 2] := by
    decide +kernel
  intro h
  have hincreasing := h.increasing
  rw [hheights] at hincreasing
  exact absurd hincreasing (by decide)

end HeightCalls

end ChainCore
end UniqysKit
