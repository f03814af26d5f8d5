import UniqysKit.ChainCore.ConsensusState

/-!
# The consensus engine

`consensus-engine/index.ts`.  A node runs on one thread: what stands between two `await`s happens at
once, and at an `await` other code may run.  So an `Event` is one such piece of code, and an `Engine`
holds, besides the fields of the source, what is waiting: the tasks in the queue of the write lock,
the place where the task that holds the lock awaits something, and the timers.

The prevote and precommit timeouts do not take the lock.  What other parts of the node answer (the
block store, the transaction pool, the clock) comes with the events.

`trace` lists what the engine has done to the outside; no code reads it.
-/

namespace UniqysKit
namespace ChainCore

open Library

/-! ## The engine -/

structure Config where
  genesisBlock : Block
  keyPair : Option KeyPair
  allowBlockTimestampError : Nat

/-- What is visible from outside: messages given to other nodes, blocks given to the synchronizer,
and the heights that were entered, with their validator sets. -/
inductive Effect
  | gossip (msg : ConsensusMessage)
  | commitBlock (height : Nat) (block : Block) (consensus : Consensus)
  | newHeight (height : Nat) (validatorSet : ValidatorSet)
  deriving DecidableEq

/-- Tasks for the write lock. -/
inductive Task
  | proceedConsensus
  | proposeTimeout (height round : Nat)
  | checkValidBlock (height round : Nat)
  | checkRoundSkip (height round : Nat) (type : VoteType)
  | newHeight (height : Nat) (appStateHash nextValidatorSetRoot eventTransactionRoot : Hash)
  deriving DecidableEq

/-- The places where a task that holds the lock awaits something. -/
inductive Await
  /-- `blockOf` in `doNewRound` -/
  | lastBlock
  /-- `selectTransactions` in `doNewRound` -/
  | newRoundTransactions
  /-- `selectTransactions` in `enterPropose` -/
  | proposeTransactions
  /-- `hashOf` and `consensusOf` in `sendProposalMessage` -/
  | lastConsensus (transactions : List Transaction)
  | sendProposalMessage
  | sendPrevoteMessage
  | sendPrecommitMessage
  | commitBlock
  deriving DecidableEq

inductive Timer
  | propose (height round : Nat)
  | prevote (height round : Nat)
  | precommit (height round : Nat)
  deriving DecidableEq

/-- The state of an `AsyncLoop`. -/
inductive Loop
  | scheduled
  | running
  | stopped
  deriving DecidableEq

structure Engine where
  validatorSet : ValidatorSet
  state : State
  queue : List Task
  holder : Option (Task × Await)
  timers : List Timer
  /-- Prevote timeouts that await `sendPrecommitMessage`. -/
  prevoteTimeouts : Nat
  consensusLoop : Loop
  trace : List Effect

namespace Engine

/-- An engine before `start`. -/
def new (c : Crypto) (initialValidatorSet : ValidatorSet) : Engine where
  validatorSet := initialValidatorSet
  state := State.new c
  queue := []
  holder := none
  timers := []
  prevoteTimeouts := 0
  consensusLoop := .stopped
  trace := [.newHeight 0 ⟨[]⟩]

def modifyState (f : State → State) : Action Engine Unit :=
  modify fun engine => { engine with state := f engine.state }

def setStep (step : Step) : Action Engine Unit := modifyState fun state => { state with step }

def emit (effect : Effect) : Action Engine Unit :=
  modify fun engine => { engine with trace := engine.trace ++ [effect] }

def gossip (msg : ConsensusMessage) : Action Engine Unit := emit (.gossip msg)

/-- `writeLock.use`: the task waits for its turn. -/
def useLock (task : Task) : Action Engine Unit :=
  modify fun engine => { engine with queue := engine.queue ++ [task] }

def setTimeout (timer : Timer) : Action Engine Unit :=
  modify fun engine => { engine with timers := engine.timers ++ [timer] }

end Engine

open Engine

variable (c : Crypto) (config : Config)

/-- The address of the node's key, if it has one. -/
def Config.address : Option Address := config.keyPair.map (KeyPair.address c)

def Config.genesisHash : Hash := config.genesisBlock.hash c

def isValidator (engine : Engine) : Bool :=
  match config.address c with
  | some address => engine.validatorSet.existsAddress address
  | none => false

/-! ## Messages -/

def checkValidBlock (height round : Nat) : Action Engine Unit :=
  useLock (.checkValidBlock height round)

def checkRoundSkip (height round : Nat) (type : VoteType) : Action Engine Unit :=
  useLock (.checkRoundSkip height round type)

def handleProposal (msg : ProposalMessage) : Action Engine Unit := do
  let engine ← get
  let state := engine.state
  let proposal := msg.proposal
  -- a proposal of a later round is kept for a round skip
  if proposal.height ≠ state.height ∨ proposal.round < state.round then return
  let roundState := state.roundStateOf proposal.round
  if roundState.proposal.isSome then return
  if proposal.lockedRound ≠ 0 ∧ proposal.round ≤ proposal.lockedRound then return
  let proposer ← Action.fromResult (engine.validatorSet.proposer proposal.height proposal.round)
  let signer ← Action.fromResult (msg.signerAddress c (config.genesisHash c))
  if proposer ≠ signer then return
  modifyState (State.setRoundState proposal.round { roundState with proposal := some msg })
  gossip (.proposal msg)

/-- A vote as a message. -/
def voteMessage : {type : VoteType} → VoteMessage type → ConsensusMessage
  | .prevote, msg => .prevote msg
  | .precommit, msg => .precommit msg

/-- Adding a vote to the votes of its round, which stay changed when `add` throws. -/
def addVote {type : VoteType} (address : Address) (msg : VoteMessage type) : Action Engine Unit :=
  fun engine =>
    let roundState := engine.state.roundStateOf msg.vote.round
    let record := fun set => { engine with
      state := engine.state.setRoundState msg.vote.round (roundState.setVotes type set) }
    match VoteSet.add address msg (roundState.votes type) with
    | .ok _ set => .ok () (record set)
    | .error e set => .error e (record set)

/-- What `handlePrevote` and `handlePrecommit` have in common; `check` comes last. -/
def handleVote {type : VoteType} (msg : VoteMessage type) (check : Action Engine Unit) :
    Action Engine Unit := do
  let state := (← get).state
  if msg.vote.height ≠ state.height then return
  let address ← Action.fromResult (msg.signerAddress c (config.genesisHash c))
  if ((state.roundStateOf msg.vote.round).votes type).has address then return
  addVote address msg
  gossip (voteMessage msg)
  checkRoundSkip msg.vote.height msg.vote.round type
  check

def handlePrevote (msg : PrevoteMessage) : Action Engine Unit :=
  handleVote c config msg (checkValidBlock msg.vote.height msg.vote.round)

def handlePrecommit (msg : PrecommitMessage) : Action Engine Unit :=
  handleVote c config msg (pure ())

def newConsensusMessage : ConsensusMessage → Action Engine Unit
  | .proposal msg => handleProposal c config msg
  | .prevote msg => handlePrevote c config msg
  | .precommit msg => handlePrecommit c config msg

/-- What `sendPrevoteMessage` and `sendPrecommitMessage` have in common. -/
def sendVote (type : VoteType) (handle : VoteMessage type → Action Engine Unit)
    (blockHash : Option Hash) : Action Engine Unit := do
  let engine ← get
  match config.keyPair with
  | none => return
  | some keyPair =>
      if ¬ isValidator c config engine then return
      let vote : Vote := ⟨engine.state.height, engine.state.round, blockHash.getD Hash.zero⟩
      let msg ← Action.fromResult
        (ConsensusMessage.signVote c type vote (config.genesisHash c) keyPair)
      handle msg

def sendPrevoteMessage : Option Hash → Action Engine Unit :=
  sendVote c config .prevote (handlePrevote c config)

def sendPrecommitMessage : Option Hash → Action Engine Unit :=
  sendVote c config .precommit (handlePrecommit c config)

/-! ## Proposing -/

/-- The end of `sendProposalMessage`, once there is a block. -/
def propose (block : Block) : Action Engine Unit := do
  let state := (← get).state
  match config.keyPair with
  | none => throw ⟨"not set keyPair"⟩
  | some keyPair =>
      let proposal : Proposal := ⟨state.height, state.round, state.validRound, block⟩
      let msg ← Action.fromResult
        (ConsensusMessage.signProposal c proposal (config.genesisHash c) keyPair)
      handleProposal c config msg

def sendProposalMessage (transactions : List Transaction) : Action Engine (Option Await) := do
  let engine ← get
  if ¬ isValidator c config engine then return some .sendProposalMessage
  match engine.state.validBlock with
  | some block =>
      propose c config block
      return some .sendProposalMessage
  | none =>
      if engine.state.height = 1 then
        propose c config config.genesisBlock
        return some .sendProposalMessage
      else return some (.lastConsensus transactions)

/-- It is the node's turn to propose. -/
def isProposer (engine : Engine) : Result Bool :=
  if isValidator c config engine then do
    let proposer ← engine.validatorSet.proposer engine.state.height engine.state.round
    return decide (some proposer = config.address c)
  else .ok false

def enterPropose (transactions : Option (List Transaction)) : Action Engine (Option Await) := do
  let engine ← get
  if ← Action.fromResult (isProposer c config engine) then
    match transactions with
    | some transactions => sendProposalMessage c config transactions
    | none => return some .proposeTransactions
  else
    setTimeout (.propose engine.state.height engine.state.round)
    setStep .propose
    return none

def doNewRound : Action Engine (Option Await) := do
  let state := (← get).state
  if state.currentRoundState.proposal.isSome then
    setStep .propose
    return none
  else if state.validBlock.isSome then enterPropose c config none
  else if state.height = 1 then enterPropose c config none
  else return some .lastBlock

/-! ## Validating -/

/-- What the rest of the node shows when a task starts. -/
structure World where
  headerOf : Nat → Result BlockHeader
  currentTimestamp : Nat

/-- The checks of `validateBlock`, one after another. -/
def checkBlock (world : World) (state : State) (block : Block) : Result Unit := do
  if block.header.height ≠ state.height then throw ⟨"invalid height"⟩
  block.validate c
  if state.height = 1 then
    if block.hash c ≠ config.genesisBlock.hash c then throw ⟨"invalid genesis block"⟩
  else
    let lastBlockHeader ← world.headerOf (state.height - 1)
    if block.header.lastBlockHash ≠ lastBlockHeader.hash c then throw ⟨"lastBlockHash mismatch"⟩
    if block.header.appStateHash ≠ state.appStateHash then throw ⟨"appStateHash mismatch"⟩
    if block.header.timestamp < lastBlockHeader.timestamp ∨
        block.header.timestamp > world.currentTimestamp + config.allowBlockTimestampError ∨
        block.header.timestamp + config.allowBlockTimestampError < world.currentTimestamp then
      throw ⟨"invalid timestamp"⟩
    if block.header.nextValidatorSetRoot ≠ state.nextValidatorSetRoot then
      throw ⟨"nextValidatorSet mismatch"⟩
    let eventTxs := block.body.transactionList.transactions.filter fun tx =>
      tx.type = TransactionType.event.toNat
    if MerkleTree.root c (eventTxs.map (Transaction.hash c)) ≠ state.eventTransactionRoot then
      throw ⟨"eventTransactionRoot mismatch"⟩

/-- What the promise of `validateBlock` resolves to. -/
def validateBlock (world : World) (state : State) (block : Block) : Bool :=
  match checkBlock c config world state block with
  | .ok _ => true
  | .error _ => false

/-- `validateBlock` is asynchronous, and `doPropose` tests the promise it returns without awaiting
it: an object is truthy, whatever it resolves to. -/
def promiseIsTruthy (_resolved : Bool) : Bool := true

/-! ## The steps of a round -/

def doPropose (world : World) : Action Engine (Option Await) := do
  let state := (← get).state
  match state.currentRoundState.proposal with
  | none => return none
  | some msg =>
      let proposal := msg.proposal
      let isLockedBlock := state.lockedBlock.any fun block => block.hash c = proposal.block.hash c
      if ¬ promiseIsTruthy (validateBlock c config world state proposal.block) then
        sendPrevoteMessage c config none
        return some .sendPrevoteMessage
      -- the proposer locked before us, but the proposal is not the locked block
      else if state.lockedRound > proposal.lockedRound ∧ ¬ isLockedBlock then
        sendPrevoteMessage c config none
        return some .sendPrevoteMessage
      -- not locked, or the proposal is the locked block
      else if state.lockedRound = 0 ∨ isLockedBlock then
        sendPrevoteMessage c config (some (proposal.block.hash c))
        return some .sendPrevoteMessage
      -- the proposer's locked round has a majority of prevotes
      else if state.lockedRound ≤ proposal.lockedRound ∧
          (state.roundStateOf proposal.lockedRound).prevote.twoThirdsMajority.any
            fun vote => vote.blockHash = proposal.block.hash c then
        sendPrevoteMessage c config (some (proposal.block.hash c))
        return some .sendPrevoteMessage
      else return none

/-- `doPrevoteOrWait` without a majority that decides. -/
def waitPrevote : Action Engine (Option Await) := do
  let state := (← get).state
  if state.step = .prevote ∧ state.currentRoundState.prevote.twoThirdsAny then
    setTimeout (.prevote state.height state.round)
    setStep .prevoteWait
  return none

def doPrevoteOrWait : Action Engine (Option Await) := do
  let state := (← get).state
  match state.currentRoundState.prevote.twoThirdsMajority with
  | none => waitPrevote
  | some vote =>
      match state.currentRoundState.proposedBlock c vote.blockHash with
      | some block =>
          modifyState fun state =>
            { state with lockedRound := state.round, lockedBlock := some block }
          sendPrecommitMessage c config (some vote.blockHash)
          return some .sendPrecommitMessage
      | none =>
          if vote.blockHash = Hash.zero then
            sendPrecommitMessage c config none
            return some .sendPrecommitMessage
          else waitPrevote

def commitBlock (precommit : VoteSet .precommit) (block : Block) : Action Engine Unit := do
  match precommit.twoThirdsMajority with
  | none => throw ⟨"cant commit block: no +2/3 precommit"⟩
  | some vote =>
      let height := (← get).state.height
      emit (.commitBlock height block ⟨vote, precommit.signatures vote.blockHash⟩)
      setStep .committed

/-- `doPrecommitOrWait` without a majority that decides. -/
def waitPrecommit : Action Engine (Option Await) := do
  let state := (← get).state
  if state.step = .precommit ∧ state.currentRoundState.precommit.twoThirdsAny then
    setTimeout (.precommit state.height state.round)
    setStep .precommitWait
  return none

def doPrecommitOrWait : Action Engine (Option Await) := do
  let state := (← get).state
  let precommit := state.currentRoundState.precommit
  match precommit.twoThirdsMajority with
  | none => waitPrecommit
  | some vote =>
      match state.currentRoundState.proposedBlock c vote.blockHash with
      | some block =>
          commitBlock precommit block
          return some .commitBlock
      | none =>
          if vote.blockHash = Hash.zero then
            modifyState (State.newRound (state.round + 1))
            return none
          else waitPrecommit

def proceedConsensus (world : World) : Action Engine (Option Await) := do
  match (← get).state.step with
  | .newRound => doNewRound c config
  | .propose => doPropose c config world
  | .prevote => doPrevoteOrWait c config
  | .prevoteWait => doPrevoteOrWait c config
  | .precommit => doPrecommitOrWait c
  | .precommitWait => doPrecommitOrWait c
  | .committed => return none

/-! ## Tasks, continuations and events -/

def runCheckValidBlock (height round : Nat) : Action Engine Unit := modifyState fun state =>
  if state.height ≠ height ∨ round ≤ state.validRound then state
  else
    match (state.roundStateOf round).prevote.twoThirdsMajority with
    | none => state
    | some vote =>
        match (state.roundStateOf round).proposedBlock c vote.blockHash with
        | some block => { state with validRound := round, validBlock := some block }
        | none => state

def runCheckRoundSkip (height round : Nat) (type : VoteType) : Action Engine Unit :=
  modifyState fun state =>
    if state.height ≠ height ∨ round ≤ state.round then state
    else if ((state.roundStateOf round).votes type).oneThirdAny then state.newRound round
    else state

/-- The lock task of `setNewHeight`; the validator set is the one of the engine when it runs. -/
def runNewHeight (height : Nat) (appStateHash nextValidatorSetRoot eventTransactionRoot : Hash) :
    Action Engine Unit := do
  let validatorSet := (← get).validatorSet
  modifyState (State.newHeight height appStateHash validatorSet nextValidatorSetRoot
    eventTransactionRoot)
  emit (.newHeight height validatorSet)

def runProposeTimeout (height round : Nat) : Action Engine (Option Await) := do
  let state := (← get).state
  if state.height = height ∧ state.round = round ∧ state.step = .propose then
    sendPrevoteMessage c config none
    return some .sendPrevoteMessage
  else return none

/-- A task until its end or its first `await`. -/
def Task.run (world : World) : Task → Action Engine (Option Await)
  | .proceedConsensus => ChainCore.proceedConsensus c config world
  | .proposeTimeout height round => runProposeTimeout c config height round
  | .checkValidBlock height round => do
      runCheckValidBlock c height round
      return none
  | .checkRoundSkip height round type => do
      runCheckRoundSkip height round type
      return none
  | .newHeight height appStateHash nextValidatorSetRoot eventTransactionRoot => do
      runNewHeight height appStateHash nextValidatorSetRoot eventTransactionRoot
      return none

/-- What an `await` can get. -/
inductive Answer
  | block (block : Block)
  | transactions (transactions : Option (List Transaction))
  | lastConsensus (timestamp : Nat) (lastBlockHash : Hash) (lastBlockConsensus : Consensus)
  | done
  | failed (e : Error)
  deriving DecidableEq

/-- `doNewRound` after `blockOf`. -/
def checkAppState (block : Block) : Action Engine (Option Await) := do
  let engine ← get
  if engine.state.appStateHash ≠ block.header.appStateHash then enterPropose c config none
  else
    let validatorSetHash ← Action.fromResult (engine.validatorSet.hash c)
    if engine.state.nextValidatorSetRoot ≠ validatorSetHash then enterPropose c config none
    else return some .newRoundTransactions

/-- `sendProposalMessage` after `hashOf` and `consensusOf`. -/
def constructAndPropose (transactions : List Transaction) (timestamp : Nat) (lastBlockHash : Hash)
    (lastBlockConsensus : Consensus) : Action Engine (Option Await) := do
  let state := (← get).state
  let block ← Action.fromResult (Block.construct c state.height timestamp lastBlockHash
    state.nextValidatorSetRoot state.appStateHash ⟨transactions⟩ lastBlockConsensus)
  propose c config block
  return some .sendProposalMessage

/-- A task from an `await` on, until its end or its next `await`. `none` where the answer is not one
that the `await` can get. -/
def Await.resume : Await → Answer → Option (Action Engine (Option Await))
  | .lastBlock, .block block => some (checkAppState c config block)
  | .newRoundTransactions, .transactions none => some (pure none)
  | .newRoundTransactions, .transactions (some transactions) =>
      some (enterPropose c config (some transactions))
  | .proposeTransactions, .transactions transactions =>
      some (ChainCore.sendProposalMessage c config (transactions.getD []))
  | .lastConsensus transactions, .lastConsensus timestamp lastBlockHash lastBlockConsensus =>
      some (constructAndPropose c config transactions timestamp lastBlockHash lastBlockConsensus)
  | .sendProposalMessage, .done => some (do setStep .propose; return none)
  | .sendPrevoteMessage, .done => some (do setStep .prevote; return none)
  | .sendPrecommitMessage, .done => some (do setStep .precommit; return none)
  | .commitBlock, .done => some (pure none)
  | .lastBlock, .failed e => some (throw e)
  | .newRoundTransactions, .failed e => some (throw e)
  | .proposeTransactions, .failed e => some (throw e)
  | .lastConsensus _, .failed e => some (throw e)
  | _, _ => none

/-- The awaits that can fail. -/
def Await.canFail : Await → Bool
  | .sendProposalMessage | .sendPrevoteMessage | .sendPrecommitMessage | .commitBlock => false
  | _ => true

/-- What a task goes on with after an `await`. -/
inductive Await.Resumes : Await → Action Engine (Option Await) → Prop
  | lastBlock (block : Block) : Resumes .lastBlock (checkAppState c config block)
  | noTransactions : Resumes .newRoundTransactions (pure none)
  | newRoundTransactions (transactions : List Transaction) :
      Resumes .newRoundTransactions (enterPropose c config (some transactions))
  | proposeTransactions (transactions : List Transaction) :
      Resumes .proposeTransactions (ChainCore.sendProposalMessage c config transactions)
  | lastConsensus (transactions : List Transaction) (timestamp : Nat) (lastBlockHash : Hash)
      (lastBlockConsensus : Consensus) :
      Resumes (.lastConsensus transactions)
        (constructAndPropose c config transactions timestamp lastBlockHash lastBlockConsensus)
  | sendProposalMessage : Resumes .sendProposalMessage (do setStep .propose; return none)
  | sendPrevoteMessage : Resumes .sendPrevoteMessage (do setStep .prevote; return none)
  | sendPrecommitMessage : Resumes .sendPrecommitMessage (do setStep .precommit; return none)
  | commitBlock : Resumes .commitBlock (pure none)
  | failed {await : Await} (hfail : await.canFail = true) (e : Error) : Resumes await (throw e)

variable {c config} in
/-- The answers one by one. -/
theorem Await.resumes {await : Await} {answer : Answer} {action : Action Engine (Option Await)}
    (hresume : await.resume c config answer = some action) : await.Resumes c config action := by
  unfold Await.resume at hresume
  split at hresume
  all_goals cases hresume
  · exact .lastBlock _
  · exact .noTransactions
  · exact .newRoundTransactions _
  · exact .proposeTransactions _
  · exact .lastConsensus _ _ _ _
  · exact .sendProposalMessage
  · exact .sendPrevoteMessage
  · exact .sendPrecommitMessage
  · exact .commitBlock
  · exact .failed rfl _
  · exact .failed rfl _
  · exact .failed rfl _
  · exact .failed rfl _

/-- The loop after `proceedConsensus` has ended or thrown. -/
def Loop.next (ok : Bool) : Loop → Loop
  | .running => if ok then .scheduled else .stopped
  | loop => loop

/-- A task has ended, has thrown, or awaits something with the lock in its hands. -/
def settle (task : Task) : EStateM.Result Error Engine (Option Await) → Engine
  | .ok (some await) engine => { engine with holder := some (task, await) }
  | .ok none engine =>
      { engine with consensusLoop :=
          if task = .proceedConsensus then engine.consensusLoop.next true else engine.consensusLoop }
  | .error _ engine =>
      { engine with consensusLoop :=
          if task = .proceedConsensus then engine.consensusLoop.next false else engine.consensusLoop }

/-- A timer runs off. -/
def Timer.run : Timer → Action Engine Unit
  | .propose height round => useLock (.proposeTimeout height round)
  | .prevote height round => do
      let state := (← get).state
      if state.height = height ∧ state.round = round ∧ state.step = .prevoteWait then
        sendPrecommitMessage c config none
        modify fun engine => { engine with prevoteTimeouts := engine.prevoteTimeouts + 1 }
  | .precommit height round => do
      let state := (← get).state
      if state.height = height ∧ state.round = round ∧ state.step = .precommitWait then
        modifyState (State.newRound (state.round + 1))

inductive Event
  | start
  | stop
  /-- The loop calls `proceedConsensus`. -/
  | loop
  | newConsensusMessage (msg : ConsensusMessage)
  /-- The lock is free, and the first task in the queue gets it. -/
  | acquire (world : World)
  /-- The task that holds the lock goes on. -/
  | resume (answer : Answer)
  | timeout (timer : Timer)
  /-- A prevote timeout goes on after `sendPrecommitMessage`. -/
  | prevoteTimeout
  /-- `setNewHeight`, once it has the validator set. -/
  | setNewHeight (height : Nat) (appStateHash : Hash) (validatorSet : ValidatorSet)
      (nextValidatorSetRoot eventTransactionRoot : Hash)

/-- What an event makes of the engine. An event that cannot happen changes nothing. -/
def Engine.step (engine : Engine) : Event → Engine
  | .start =>
      if engine.consensusLoop = .stopped then { engine with consensusLoop := .scheduled } else engine
  | .stop => { engine with consensusLoop := .stopped }
  | .loop =>
      if engine.consensusLoop = .scheduled then
        { engine with consensusLoop := .running, queue := engine.queue ++ [.proceedConsensus] }
      else engine
  | .newConsensusMessage msg => Fallible.final (newConsensusMessage c config msg engine)
  | .acquire world =>
      match engine.holder, engine.queue with
      | none, task :: queue => settle task (task.run c config world { engine with queue })
      | _, _ => engine
  | .resume answer =>
      match engine.holder with
      | some (task, await) =>
          match await.resume c config answer with
          | some action => settle task (action { engine with holder := none })
          | none => engine
      | none => engine
  | .timeout timer =>
      if timer ∈ engine.timers then
        Fallible.final (timer.run c config { engine with timers := engine.timers.erase timer })
      else engine
  | .prevoteTimeout =>
      if 0 < engine.prevoteTimeouts then
        { engine with
          prevoteTimeouts := engine.prevoteTimeouts - 1
          state := { engine.state with step := .precommit } }
      else engine
  | .setNewHeight height appStateHash validatorSet nextValidatorSetRoot eventTransactionRoot =>
      { engine with
        validatorSet
        queue := engine.queue ++
          [.newHeight height appStateHash nextValidatorSetRoot eventTransactionRoot] }

/-- The engine after some events. -/
def Engine.run (engine : Engine) (events : List Event) : Engine :=
  events.foldl (fun engine event => engine.step c config event) engine

end ChainCore
end UniqysKit
