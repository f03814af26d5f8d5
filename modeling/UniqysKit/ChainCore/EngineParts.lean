import UniqysKit.ChainCore.EngineSteps

/-!
# Going through the code of the engine

`RoundParts` has the places where the code of a round writes to the engine: a relation between engines
that holds in each of them holds of each task, `await` and timer.  `Parts` is for relations that look
at the state of the height, at the trace and at the tasks in the queue: what holds in each of the
places where these are written, holds of every event (`Parts.step`).  Some places are left to the
caller: the message that an event brings, the prevote of `doPropose`, the commit, and entering a height.
-/

namespace UniqysKit
namespace ChainCore

open Library Engine

/-- The engine after `commitBlock`. -/
def committed (engine : Engine) (vote : Vote) (block : Block) : Engine :=
  { engine with
    state := { engine.state with step := .committed }
    trace := engine.trace ++ [.commitBlock engine.state.height block
      ⟨vote, engine.state.currentRoundState.precommit.signatures vote.blockHash⟩] }

/-- The event runs `commitBlock`, with the majority of precommits for the block that is proposed. -/
structure CommitsAt (c : Crypto) (engine : Engine) (event : Event) (vote : Vote) (block : Block) :
    Prop where
  event : ∃ world, event = .acquire world
  free : engine.holder = none
  task : ∃ queue, engine.queue = .proceedConsensus :: queue
  step : engine.state.step = .precommit ∨ engine.state.step = .precommitWait
  majority : engine.state.currentRoundState.precommit.twoThirdsMajority = some vote
  block : engine.state.currentRoundState.proposedBlock c vote.blockHash = some block

theorem state_settle (task : Task) (result : EStateM.Result Error Engine (Option Await)) :
    (settle task result).state = (Fallible.final result).state := by
  cases result with
  | ok await engine' =>
      cases await with
      | none => rfl
      | some await => rfl
  | error e engine' => rfl

theorem queue_settle (task : Task) (result : EStateM.Result Error Engine (Option Await)) :
    (settle task result).queue = (Fallible.final result).queue := by
  cases result with
  | ok await engine' =>
      cases await with
      | none => rfl
      | some await => rfl
  | error e engine' => rfl

theorem doPrecommitOrWait_commits {c : Crypto} {engine : Engine} {vote : Vote} {block : Block}
    (hmajority : engine.state.currentRoundState.precommit.twoThirdsMajority = some vote)
    (hblock : engine.state.currentRoundState.proposedBlock c vote.blockHash = some block) :
    doPrecommitOrWait c engine = .ok (some .commitBlock) (committed engine vote block) := by
  rw [doPrecommitOrWait, Fallible.get_bind]
  simp only [hmajority, hblock, commitBlock]
  rfl

/-- What an event that commits makes of the state and the trace. -/
theorem CommitsAt.step_eq {c : Crypto} {config : Config} {engine : Engine} {event : Event}
    {vote : Vote} {block : Block} (hcommits : CommitsAt c engine event vote block) :
    (engine.step c config event).state = (committed engine vote block).state ∧
      (engine.step c config event).trace = (committed engine vote block).trace := by
  rcases hcommits with ⟨⟨world, rfl⟩, hfree, ⟨queue, hqueue⟩, hstep, hmajority, hblock⟩
  have htask : Task.run c config world .proceedConsensus { engine with queue } =
      .ok (some .commitBlock) (committed { engine with queue } vote block) := by
    rw [Task.run, proceedConsensus, Fallible.get_bind]
    rcases hstep with hstep | hstep
    · simp only [hstep]
      exact doPrecommitOrWait_commits hmajority hblock
    · simp only [hstep]
      exact doPrecommitOrWait_commits hmajority hblock
  rw [Engine.step]
  split
  · rename_i task rest _ hcons
    rw [hqueue] at hcons
    cases hcons
    rw [htask]
    exact ⟨rfl, rfl⟩
  · rename_i hnot
    exact absurd hqueue (hnot _ _ hfree)

/-- A vote of the node itself is handled as one of another node. -/
theorem respects_sendVote {c : Crypto} {config : Config} {R : Fallible.Progress Engine}
    {type : VoteType} {handle : VoteMessage type → Action Engine Unit}
    (hhandle : ∀ msg, Fallible.Respects R (handle msg)) (blockHash : Option Hash) :
    Fallible.Respects R (sendVote c config type handle blockHash) := by
  intro engine
  refine (ends_sendVote (fun _ => R.refl engine) ?_).final
  intro _ msg _ _ _ _
  exact Fallible.ends_of_final (hhandle msg engine)

section Proposing

variable {c : Crypto} {config : Config} {R : Fallible.Progress Engine}
  (hproposal : ∀ msg, Fallible.Respects R (handleProposal c config msg))

include hproposal

/-- A proposal of the node itself is handled as one of another node. -/
theorem respects_propose (block : Block) : Fallible.Respects R (propose c config block) := by
  intro engine
  refine (ends_propose (R.refl engine) ?_).final
  intro msg
  exact Fallible.ends_of_final (hproposal msg engine)

theorem respects_sendProposalMessage (transactions : List Transaction) :
    Fallible.Respects R (sendProposalMessage c config transactions) := by
  refine Fallible.Respects.get.bind ?_
  intro engine
  split
  · exact .pure _
  · split
    · exact (respects_propose hproposal _).bind fun _ => .pure _
    · split
      · exact (respects_propose hproposal _).bind fun _ => .pure _
      · exact .pure _

theorem respects_constructAndPropose (transactions : List Transaction) (timestamp : Nat)
    (lastBlockHash : Hash) (lastBlockConsensus : Consensus) :
    Fallible.Respects R
      (constructAndPropose c config transactions timestamp lastBlockHash lastBlockConsensus) := by
  refine Fallible.Respects.get.bind fun engine => (Action.respects_fromResult _).bind ?_
  intro block
  exact (respects_propose hproposal block).bind fun _ => .pure _

/-! ### On the way to the Propose step -/

variable (htimer : ∀ timer, Fallible.Respects R (Engine.setTimeout timer))
  (hstep : Fallible.Respects R (Engine.setStep .propose))

include htimer hstep

/-- A proposer sends a proposal, and the others set the timeout and take the step. -/
theorem respects_enterPropose (transactions : Option (List Transaction)) :
    Fallible.Respects R (enterPropose c config transactions) := by
  refine Fallible.Respects.get.bind fun engine => (Action.respects_fromResult _).bind ?_
  intro proposes
  split
  · split
    · exact respects_sendProposalMessage hproposal _
    · exact .pure _
  · exact (htimer _).bind fun _ => hstep.bind fun _ => .pure _

theorem respects_checkAppState (block : Block) :
    Fallible.Respects R (checkAppState c config block) := by
  refine Fallible.Respects.get.bind ?_
  intro engine
  split
  · exact respects_enterPropose hproposal htimer hstep _
  · refine (Action.respects_fromResult _).bind ?_
    intro validatorSetHash
    split
    · exact respects_enterPropose hproposal htimer hstep _
    · exact .pure _

end Proposing

section Parts

variable (c : Crypto) (config : Config)

/-- The relation holds where the code of a round writes to the engine. -/
structure RoundParts (R : Fallible.Progress Engine) : Prop where
  timers : ∀ (engine : Engine) timers, R.rel engine { engine with timers }
  prevoteTimeouts : ∀ (engine : Engine) prevoteTimeouts,
    R.rel engine { engine with prevoteTimeouts }
  proposeTimeout : ∀ (engine : Engine) height round,
    R.rel engine { engine with queue := engine.queue ++ [.proposeTimeout height round] }
  setStep : ∀ (engine : Engine) step,
    R.rel engine { engine with state := { engine.state with step } }
  proposal : ∀ msg, Fallible.Respects R (handleProposal c config msg)
  prevote : Fallible.Respects R (sendPrevoteMessage c config none)
  precommit : ∀ blockHash, Fallible.Respects R (sendPrecommitMessage c config blockHash)
  lock : ∀ {engine : Engine} {vote block},
    engine.state.currentRoundState.prevote.twoThirdsMajority = some vote →
    engine.state.currentRoundState.proposedBlock c vote.blockHash = some block →
    R.rel engine { engine with state :=
      { engine.state with lockedRound := engine.state.round, lockedBlock := some block } }
  validBlock : ∀ {engine : Engine} {round vote block}, engine.state.validRound < round →
    (engine.state.roundStateOf round).prevote.twoThirdsMajority = some vote →
    (engine.state.roundStateOf round).proposedBlock c vote.blockHash = some block →
    R.rel engine { engine with state :=
      { engine.state with validRound := round, validBlock := some block } }
  newRound : ∀ {engine : Engine} {round}, engine.state.round < round →
    R.rel engine { engine with state := engine.state.newRound round }

/-- The relation holds where the code of a round writes to the state of the height or to the trace. -/
structure Parts (R : Fallible.Progress Engine) : Prop where
  idle : ∀ {engine engine' : Engine}, engine'.state = engine.state →
    engine'.trace = engine.trace → engine.queue <+: engine'.queue → R.rel engine engine'
  setStep : ∀ (engine : Engine) step,
    R.rel engine { engine with state := { engine.state with step } }
  proposal : ∀ msg, Fallible.Respects R (handleProposal c config msg)
  prevote : Fallible.Respects R (sendPrevoteMessage c config none)
  precommit : ∀ blockHash, Fallible.Respects R (sendPrecommitMessage c config blockHash)
  lock : ∀ {engine : Engine} {vote block},
    engine.state.currentRoundState.prevote.twoThirdsMajority = some vote →
    engine.state.currentRoundState.proposedBlock c vote.blockHash = some block →
    R.rel engine { engine with state :=
      { engine.state with lockedRound := engine.state.round, lockedBlock := some block } }
  validBlock : ∀ {engine : Engine} {round vote block}, engine.state.validRound < round →
    (engine.state.roundStateOf round).prevote.twoThirdsMajority = some vote →
    (engine.state.roundStateOf round).proposedBlock c vote.blockHash = some block →
    R.rel engine { engine with state :=
      { engine.state with validRound := round, validBlock := some block } }
  newRound : ∀ {engine : Engine} {round}, engine.state.round < round →
    R.rel engine { engine with state := engine.state.newRound round }

/-- The engine after the task of `setNewHeight`. -/
def enteredHeight (engine : Engine) (height : Nat)
    (appStateHash nextValidatorSetRoot eventTransactionRoot : Hash) : Engine :=
  { engine with
    state := engine.state.newHeight height appStateHash engine.validatorSet nextValidatorSetRoot
      eventTransactionRoot
    trace := engine.trace ++ [.newHeight height engine.validatorSet] }

namespace RoundParts

variable {c config} {R : Fallible.Progress Engine} (h : RoundParts c config R)

include h

theorem setStep_respects (step : Step) : Fallible.Respects R (Engine.setStep step) :=
  .modify fun engine => h.setStep engine step

theorem setTimeout (timer : Timer) : Fallible.Respects R (Engine.setTimeout timer) :=
  .modify fun engine => h.timers engine _

/-! ## The steps of a round -/

theorem enterPropose (transactions : Option (List Transaction)) :
    Fallible.Respects R (ChainCore.enterPropose c config transactions) := by
  refine Fallible.Respects.get.bind fun engine => (Action.respects_fromResult _).bind ?_
  intro proposes
  split
  · split
    · exact respects_sendProposalMessage h.proposal _
    · exact .pure _
  · exact (h.setTimeout _).bind fun _ => (h.setStep_respects _).bind fun _ => .pure _

theorem doNewRound : Fallible.Respects R (ChainCore.doNewRound c config) := by
  refine Fallible.Respects.get.bind ?_
  intro engine
  simp only
  split
  · exact (h.setStep_respects _).bind fun _ => .pure _
  · split
    · exact h.enterPropose _
    · split
      · exact h.enterPropose _
      · exact .pure _

theorem waitPrevote : Fallible.Respects R ChainCore.waitPrevote := by
  refine Fallible.Respects.get.bind ?_
  intro engine
  simp only
  split
  · exact (h.setTimeout _).bind fun _ => (h.setStep_respects _).bind fun _ => .pure _
  · exact .pure _

/-- The lock is set on the state that was read. -/
theorem doPrevoteOrWait : Fallible.Respects R (ChainCore.doPrevoteOrWait c config) := by
  intro engine
  rw [ChainCore.doPrevoteOrWait, Fallible.get_bind]
  cases hmajority : engine.state.currentRoundState.prevote.twoThirdsMajority with
  | none => exact h.waitPrevote engine
  | some vote =>
      simp only
      cases hblock : engine.state.currentRoundState.proposedBlock c vote.blockHash with
      | some block =>
          have hlock : (modifyState fun state =>
              { state with lockedRound := state.round, lockedBlock := some block }) engine =
              .ok () { engine with state :=
                { engine.state with lockedRound := engine.state.round, lockedBlock := some block } } :=
            rfl
          have hsend : Fallible.Respects R (do
              sendPrecommitMessage c config (some vote.blockHash)
              return some Await.sendPrecommitMessage) :=
            (h.precommit _).bind fun _ => .pure _
          simp only
          rw [Fallible.bind_ok hlock]
          exact R.trans (h.lock hmajority hblock) (hsend _)
      | none =>
          simp only
          split
          · exact Fallible.Respects.bind (h.precommit _) (fun _ => .pure _) engine
          · exact h.waitPrevote engine

theorem waitPrecommit : Fallible.Respects R ChainCore.waitPrecommit := by
  refine Fallible.Respects.get.bind ?_
  intro engine
  simp only
  split
  · exact (h.setTimeout _).bind fun _ => (h.setStep_respects _).bind fun _ => .pure _
  · exact .pure _

/-- `doPrecommitOrWait` commits the proposed block if that has the majority. -/
theorem doPrecommitOrWait {engine : Engine}
    (hcommit : ∀ vote block,
      engine.state.currentRoundState.precommit.twoThirdsMajority = some vote →
      engine.state.currentRoundState.proposedBlock c vote.blockHash = some block →
      R.rel engine (committed engine vote block)) :
    R.rel engine (Fallible.final (ChainCore.doPrecommitOrWait c engine)) := by
  cases hmajority : engine.state.currentRoundState.precommit.twoThirdsMajority with
  | none =>
      rw [ChainCore.doPrecommitOrWait, Fallible.get_bind]
      simp only [hmajority]
      exact h.waitPrecommit engine
  | some vote =>
      cases hblock : engine.state.currentRoundState.proposedBlock c vote.blockHash with
      | some block =>
          rw [doPrecommitOrWait_commits hmajority hblock]
          exact hcommit vote block hmajority hblock
      | none =>
          rw [ChainCore.doPrecommitOrWait, Fallible.get_bind]
          simp only [hmajority, hblock]
          split
          · exact h.newRound (Nat.lt_succ_self _)
          · exact h.waitPrecommit engine

theorem checkValidBlock (height round : Nat) :
    Fallible.Respects R (runCheckValidBlock c height round) := by
  refine .modify ?_
  intro engine
  simp only
  split
  · exact R.refl engine
  · rename_i hround
    split
    · exact R.refl engine
    · rename_i vote hmajority
      split
      · rename_i block hblock
        exact h.validBlock (by omega) hmajority hblock
      · exact R.refl engine

theorem checkRoundSkip (height round : Nat) (type : VoteType) :
    Fallible.Respects R (runCheckRoundSkip height round type) := by
  refine .modify ?_
  intro engine
  simp only
  split
  · exact R.refl engine
  · rename_i hround
    split
    · exact h.newRound (by omega)
    · exact R.refl engine

/-! ## Tasks, continuations and timers -/

/-- A task that gets the lock. -/
theorem task {engine : Engine} {world : World} (task : Task)
    (hpropose : task = .proceedConsensus → engine.state.step = .propose →
      R.rel engine (Fallible.final (ChainCore.doPropose c config world engine)))
    (hcommit : ∀ vote block, task = .proceedConsensus →
      engine.state.step = .precommit ∨ engine.state.step = .precommitWait →
      engine.state.currentRoundState.precommit.twoThirdsMajority = some vote →
      engine.state.currentRoundState.proposedBlock c vote.blockHash = some block →
      R.rel engine (committed engine vote block))
    (hheight : ∀ height appStateHash nextValidatorSetRoot eventTransactionRoot,
      task = .newHeight height appStateHash nextValidatorSetRoot eventTransactionRoot →
      R.rel engine (enteredHeight engine height appStateHash nextValidatorSetRoot
        eventTransactionRoot)) :
    R.rel engine (Fallible.final (task.run c config world engine)) := by
  cases task with
  | proceedConsensus =>
      rw [Task.run, ChainCore.proceedConsensus, Fallible.get_bind]
      cases hstep : engine.state.step with
      | newRound => exact h.doNewRound engine
      | propose => exact hpropose rfl hstep
      | prevote => exact h.doPrevoteOrWait engine
      | prevoteWait => exact h.doPrevoteOrWait engine
      -- a precommit may end in the commit of a block, which is left to the caller
      | precommit =>
          refine h.doPrecommitOrWait ?_
          intro vote block
          exact hcommit vote block rfl (.inl hstep)
      | precommitWait =>
          refine h.doPrecommitOrWait ?_
          intro vote block
          exact hcommit vote block rfl (.inr hstep)
      | committed => exact R.refl engine
  | proposeTimeout height round =>
      -- the timeout counts only in the step and the round it was set for
      refine Fallible.Respects.bind .get ?_ engine
      intro engine
      simp only
      split
      · exact h.prevote.bind fun _ => .pure _
      · exact .pure _
  | checkValidBlock height round => exact h.checkValidBlock height round engine
  | checkRoundSkip height round type => exact h.checkRoundSkip height round type engine
  | newHeight height appStateHash nextValidatorSetRoot eventTransactionRoot =>
      exact hheight height appStateHash nextValidatorSetRoot eventTransactionRoot rfl

theorem resume {await : Await} {answer : Answer} {action : Action Engine (Option Await)}
    (hresume : await.resume c config answer = some action) : Fallible.Respects R action := by
  have hsetStep : ∀ step, Fallible.Respects R (do
      Engine.setStep step; return (none : Option Await)) :=
    fun step => (h.setStep_respects _).bind fun _ => .pure _
  cases Await.resumes hresume with
  | lastBlock block =>
      -- the last block has come, and its state is compared before the round goes on
      refine Fallible.Respects.get.bind ?_
      intro engine
      split
      · exact h.enterPropose _
      · refine (Action.respects_fromResult _).bind ?_
        intro validatorSetHash
        split
        · exact h.enterPropose _
        · exact .pure _
  | noTransactions => exact .pure _
  | newRoundTransactions => exact h.enterPropose _
  | proposeTransactions => exact respects_sendProposalMessage h.proposal _
  | lastConsensus => exact respects_constructAndPropose h.proposal _ _ _ _
  | sendProposalMessage => exact hsetStep _
  | sendPrevoteMessage => exact hsetStep _
  | sendPrecommitMessage => exact hsetStep _
  | commitBlock => exact .pure _
  | failed => exact .throw _

theorem timer (timer : Timer) : Fallible.Respects R (timer.run c config) := by
  cases timer with
  | propose height round => exact .modify fun engine => h.proposeTimeout engine height round
  | prevote height round =>
      refine Fallible.Respects.get.bind ?_
      intro engine
      simp only
      split
      · exact (h.precommit _).bind fun _ => .modify fun engine => h.prevoteTimeouts engine _
      · exact .pure _
  | precommit height round =>
      intro engine
      rw [Timer.run, Fallible.get_bind]
      split
      · exact h.newRound (Nat.lt_succ_self _)
      · exact R.refl engine

end RoundParts

namespace Parts

variable {c config} {R : Fallible.Progress Engine}

/-- `doPropose` prevotes, if anything. -/
theorem doPropose (hsend : ∀ blockHash, Fallible.Respects R (sendPrevoteMessage c config blockHash))
    (world : World) : Fallible.Respects R (ChainCore.doPropose c config world) := by
  have hsend' : ∀ blockHash, Fallible.Respects R (do
      sendPrevoteMessage c config blockHash; return some Await.sendPrevoteMessage) :=
    fun blockHash => (hsend blockHash).bind fun _ => .pure _
  refine Fallible.Respects.get.bind ?_
  intro engine
  simp only
  split
  · exact .pure _
  · split
    · exact hsend' _
    · split
      · exact hsend' _
      · split
        · exact hsend' _
        · split
          · exact hsend' _
          · exact .pure _

variable (h : Parts c config R)

include h

theorem round : RoundParts c config R where
  timers _ _ := h.idle rfl rfl List.prefix_rfl
  prevoteTimeouts _ _ := h.idle rfl rfl List.prefix_rfl
  proposeTimeout _ _ _ := h.idle rfl rfl (List.prefix_append _ _)
  setStep := h.setStep
  proposal := h.proposal
  prevote := h.prevote
  precommit := h.precommit
  lock := h.lock
  validBlock := h.validBlock
  newRound := h.newRound

/-! ## Events -/

theorem settle {result : EStateM.Result Error Engine (Option Await)} {engine : Engine}
    (hrel : R.rel engine (Fallible.final result)) (task : Task) :
    R.rel engine (ChainCore.settle task result) := by
  refine R.trans hrel (h.idle (state_settle task result) (trace_settle task result) ?_)
  rw [queue_settle]

/-- An event at which no task gets the lock. -/
theorem other {engine : Engine} {event : Event} (hother : ∀ world, event ≠ .acquire world)
    (hmessage : ∀ msg, event = .newConsensusMessage msg →
      R.rel engine (Fallible.final (newConsensusMessage c config msg engine))) :
    R.rel engine (engine.step c config event) := by
  have hrefl := R.refl engine
  cases event with
  | start =>
      rw [Engine.step]
      split
      · exact h.idle rfl rfl List.prefix_rfl
      · exact hrefl
  | stop => exact h.idle rfl rfl List.prefix_rfl
  | loop =>
      rw [Engine.step]
      split
      · exact h.idle rfl rfl (List.prefix_append _ _)
      · exact hrefl
  | newConsensusMessage msg => exact hmessage msg rfl
  | acquire world => exact absurd rfl (hother world)
  | resume answer =>
      rw [Engine.step]
      split
      · split
        · rename_i hresume
          -- the lock is given back, then the task goes on from where it awaited
          have hheld : R.rel engine { engine with holder := none } :=
            h.idle rfl rfl List.prefix_rfl
          exact R.trans hheld (h.settle (h.round.resume hresume _) _)
        · exact hrefl
      · exact hrefl
  | timeout timer =>
      rw [Engine.step]
      split
      · have herased : R.rel engine { engine with timers := engine.timers.erase timer } :=
          h.idle rfl rfl List.prefix_rfl
        exact R.trans herased (h.round.timer timer _)
      · exact hrefl
  | prevoteTimeout =>
      rw [Engine.step]
      split
      · exact R.trans (h.setStep engine .precommit) (h.idle rfl rfl List.prefix_rfl)
      · exact hrefl
  | setNewHeight height appStateHash validatorSet nextValidatorSetRoot eventTransactionRoot =>
      exact h.idle rfl rfl (List.prefix_append _ _)

/-- Every event respects the relation, if that is so of taking a task from the queue, and of the places
that are left to the caller. -/
theorem step (engine : Engine) (event : Event)
    (hpop : ∀ task queue, engine.queue = task :: queue → R.rel engine { engine with queue })
    (hmessage : ∀ msg, event = .newConsensusMessage msg →
      R.rel engine (Fallible.final (newConsensusMessage c config msg engine)))
    (hpropose : ∀ world queue, event = .acquire world → engine.holder = none →
      engine.queue = .proceedConsensus :: queue → engine.state.step = .propose →
      R.rel { engine with queue }
        (Fallible.final (ChainCore.doPropose c config world { engine with queue })))
    (hcommit : ∀ queue vote block, engine.queue = .proceedConsensus :: queue →
      CommitsAt c engine event vote block →
      R.rel { engine with queue } (committed { engine with queue } vote block))
    (hheight : ∀ queue height appStateHash nextValidatorSetRoot eventTransactionRoot,
      R.rel { engine with queue } (enteredHeight { engine with queue } height appStateHash
        nextValidatorSetRoot eventTransactionRoot)) :
    R.rel engine (engine.step c config event) := by
  by_cases hacquire : ∃ world, event = .acquire world
  · rcases hacquire with ⟨world, rfl⟩
    rw [Engine.step]
    split
    · -- the lock is free and the first task of the queue gets it
      rename_i task queue hholder hqueue
      refine R.trans (hpop task queue hqueue) (h.settle (h.round.task task ?_ ?_ ?_) task)
      · rintro rfl hstep
        exact hpropose world queue rfl hholder hqueue hstep
      · rintro vote block rfl hstep hvote hblock
        exact hcommit queue vote block hqueue
          ⟨⟨world, rfl⟩, hholder, ⟨queue, hqueue⟩, hstep, hvote, hblock⟩
      · intro height appStateHash nextValidatorSetRoot eventTransactionRoot _
        exact hheight queue height appStateHash nextValidatorSetRoot eventTransactionRoot
    · exact R.refl engine
  · push Not at hacquire
    exact h.other hacquire hmessage

end Parts

end Parts

end ChainCore
end UniqysKit
