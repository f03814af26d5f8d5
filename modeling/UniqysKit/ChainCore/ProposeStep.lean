import UniqysKit.ChainCore.CommitCertificates
import UniqysKit.ChainCore.Locks

/-!
# The Propose step

A node leaves the Propose step when `doPropose` prevotes, or at the propose timeout.  The timeout is
set only by a node that waits for the proposal of another.  A node that makes the proposal itself, or
that knows it when the round starts, relies on `doPropose`, which does nothing with a proposal whose
locked round has no majority in the node's own votes.  `ProposeGuarded` lists what must not happen
where the step is entered; in the runs in which it does not, no node gets stuck
(`propose_not_stuck`).
-/

namespace UniqysKit
namespace ChainCore

open Library Engine

/-! ## Getting stuck -/

section Definitions

variable (c : Crypto) (config : Config)

/-- `doPropose` has a prevote for the proposal: the node is not locked or the proposal is its locked
block, or the proposer has locked before it, or the prevotes of the round in which the proposer has
locked have a majority for the block. -/
def Answerable (state : State) (msg : ProposalMessage) : Prop :=
  state.lockedRound = 0 ∨
    (∃ block ∈ state.lockedBlock, block.hash c = msg.proposal.block.hash c) ∨
    msg.proposal.lockedRound < state.lockedRound ∨
    ∃ vote ∈ (state.roundStateOf msg.proposal.lockedRound).prevote.twoThirdsMajority,
      vote.blockHash = msg.proposal.block.hash c

/-- The proposal of the round is known, and `doPropose` has a prevote for it. -/
def Answered (state : State) : Prop :=
  ∃ msg ∈ state.currentRoundState.proposal, Answerable c state msg

/-- The next run of `doPropose` leaves the step: it goes on to the prevote. -/
def Leaves (engine : Engine) : Prop :=
  ∀ world, ∃ engine', doPropose c config world engine = .ok (some .sendPrevoteMessage) engine'

/-- A propose timeout of the round is set, waits for the lock, or is about to leave the step. -/
def Outstanding (engine : Engine) : Prop :=
  .propose engine.state.height engine.state.round ∈ engine.timers ∨
    .proposeTimeout engine.state.height engine.state.round ∈ engine.queue ∨
    engine.holder = some (.proposeTimeout engine.state.height engine.state.round, .sendPrevoteMessage)

/-- The Propose step of a validator is not stuck. -/
def NotStuck (engine : Engine) : Prop :=
  isValidator c config engine = true → engine.state.step = .propose →
    Leaves c config engine ∨ Outstanding engine

/-- The node can record a vote of its own, if it is a validator: the vote can be serialized, and the
node has power in the validator set of the state. -/
def CanVote (engine : Engine) : Prop :=
  isValidator c config engine = true →
    engine.state.height < 2 ^ 48 ∧ engine.state.round < 2 ^ 32 ∧
      ∀ address ∈ config.address c, 0 < engine.state.validatorSet.weight address

/-- After these the code can enter the Propose step. -/
def Await.entersPropose : Await → Bool
  | .lastBlock => true
  | .newRoundTransactions => true
  | .sendProposalMessage => true
  | _ => false

/-- What must hold at a step:
where a round starts with a proposal that is known, or the node has made one, the proposal of the
round is recorded and `doPropose` has a prevote for it;
where the step is entered the node can vote, if it is a validator;
and this stays so when it gets the validators of a new height in the Propose step. -/
structure ProposeGuarded (engine : Engine) (event : Event) : Prop where
  started : ∀ world queue, event = .acquire world → engine.holder = none →
    engine.queue = .proceedConsensus :: queue → engine.state.step = .newRound →
      CanVote c config engine ∧
        ∀ msg ∈ engine.state.currentRoundState.proposal, Answerable c engine.state msg
  resumed : ∀ answer task await, event = .resume answer → engine.holder = some (task, await) →
    await.entersPropose = true → CanVote c config engine
  proposed : ∀ answer task, event = .resume answer →
    engine.holder = some (task, .sendProposalMessage) → Answered c engine.state
  newHeight : ∀ height appStateHash validatorSet nextValidatorSetRoot eventTransactionRoot,
    event = .setNewHeight height appStateHash validatorSet nextValidatorSetRoot eventTransactionRoot →
      engine.state.step = .propose → CanVote c config { engine with validatorSet }

/-- The invariant of guarded runs. -/
def Unstuck (engine : Engine) : Prop :=
  engine.state.step = .propose →
    CanVote c config engine ∧ (Answered c engine.state ∨ Outstanding engine)

end Definitions

/-! ## What messages leave alone -/

/-- Only votes and proposals were recorded, and tasks queued. -/
structure Steady (engine engine' : Engine) : Prop where
  extend : Extends engine.state engine'.state
  height : engine'.state.height = engine.state.height
  round : engine'.state.round = engine.state.round
  step : engine'.state.step = engine.state.step
  lockedRound : engine'.state.lockedRound = engine.state.lockedRound
  lockedBlock : engine'.state.lockedBlock = engine.state.lockedBlock
  stateValidatorSet : engine'.state.validatorSet = engine.state.validatorSet
  validatorSet : engine'.validatorSet = engine.validatorSet
  timers : engine.timers <+: engine'.timers
  queue : engine.queue <+: engine'.queue
  holder : engine'.holder = engine.holder

def steady : Fallible.Progress Engine where
  rel := Steady
  refl _ := ⟨.of_roundStateOf rfl, rfl, rfl, rfl, rfl, rfl, rfl, rfl, List.prefix_rfl,
    List.prefix_rfl, rfl⟩
  trans h h' := ⟨⟨fun round vote hvote => h'.extend.majority round vote
      (h.extend.majority round vote hvote), fun round msg hmsg => h'.extend.proposal round msg
      (h.extend.proposal round msg hmsg)⟩, h'.height.trans h.height, h'.round.trans h.round,
    h'.step.trans h.step, h'.lockedRound.trans h.lockedRound, h'.lockedBlock.trans h.lockedBlock,
    h'.stateValidatorSet.trans h.stateValidatorSet, h'.validatorSet.trans h.validatorSet,
    h.timers.trans h'.timers, h.queue.trans h'.queue, h'.holder.trans h.holder⟩

section Steady

variable {c : Crypto} {config : Config} {engine engine' : Engine}

theorem steady_handleProposal (msg : ProposalMessage) :
    Fallible.Respects steady (handleProposal c config msg) := by
  intro engine
  refine (ends_handleProposal (steady.refl engine) ?_).final
  intro _ _ hnone _
  exact ⟨extends_setProposal hnone, rfl, rfl, rfl, rfl, rfl, rfl, rfl, List.prefix_rfl,
    List.prefix_rfl, rfl⟩

/-- A vote is recorded, and looked at by tasks that are queued. -/
theorem steady_handleVote {type : VoteType} (msg : VoteMessage type) {check : Action Engine Unit}
    (hcheck : Fallible.Respects steady check) :
    Fallible.Respects steady (handleVote c config msg check) := by
  intro engine
  refine (ends_handleVote (fun _ => steady.refl engine) ?_ ?_).final
  · intro address e _ _ _ _
    exact ⟨extends_setVotes fun _ h => h, rfl, rfl, rfl, rfl, rfl, rfl, rfl, List.prefix_rfl,
      List.prefix_rfl, rfl⟩
  · intro address power _ _ _ _
    refine Fallible.ends_of_final (steady.trans ?_ (hcheck _))
    exact ⟨extends_setVotes fun _ h => VoteSet.majority_count h, rfl, rfl, rfl, rfl, rfl, rfl, rfl,
      List.prefix_rfl, List.prefix_append _ _, rfl⟩

theorem steady_useLock (task : Task) : Fallible.Respects steady (useLock task) :=
  .modify fun _ => ⟨.of_roundStateOf rfl, rfl, rfl, rfl, rfl, rfl, rfl, rfl, List.prefix_rfl,
    List.prefix_append _ _, rfl⟩

theorem steady_newConsensusMessage (msg : ConsensusMessage) :
    Fallible.Respects steady (newConsensusMessage c config msg) := by
  cases msg with
  | proposal msg => exact steady_handleProposal msg
  | prevote msg => exact steady_handleVote msg (steady_useLock _)
  | precommit msg => exact steady_handleVote msg (.pure ())

theorem steady_sendPrevoteMessage (blockHash : Option Hash) :
    Fallible.Respects steady (sendPrevoteMessage c config blockHash) :=
  respects_sendVote (fun msg => steady_handleVote msg (steady_useLock _)) blockHash

theorem steady_sendPrecommitMessage (blockHash : Option Hash) :
    Fallible.Respects steady (sendPrecommitMessage c config blockHash) :=
  respects_sendVote (fun msg => steady_handleVote msg (.pure ())) blockHash

theorem Answered.extend {state state' : State} (h : Answered c state)
    (hextends : Extends state state') (hround : state'.round = state.round)
    (hlocked : state'.lockedRound = state.lockedRound)
    (hblock : state'.lockedBlock = state.lockedBlock) : Answered c state' := by
  rcases h with ⟨msg, hmsg, hanswer⟩
  refine ⟨msg, ?_, ?_⟩
  · unfold State.currentRoundState
    rw [hround]
    exact hextends.proposal _ msg hmsg
  · unfold Answerable
    rw [hlocked, hblock]
    rcases hanswer with hzero | hsame | hearlier | ⟨vote, hvote, hhash⟩
    · exact .inl hzero
    · exact .inr (.inl hsame)
    · exact .inr (.inr (.inl hearlier))
    · exact .inr (.inr (.inr ⟨vote, hextends.majority _ vote hvote, hhash⟩))

theorem isValidator_congr (h : engine'.validatorSet = engine.validatorSet) :
    isValidator c config engine' = isValidator c config engine := by
  unfold isValidator
  rw [h]

theorem CanVote.congr (h : CanVote c config engine)
    (hheight : engine'.state.height = engine.state.height)
    (hround : engine'.state.round = engine.state.round)
    (hstate : engine'.state.validatorSet = engine.state.validatorSet)
    (hset : engine'.validatorSet = engine.validatorSet) : CanVote c config engine' := by
  unfold CanVote
  rw [isValidator_congr hset, hheight, hround, hstate]
  exact h

/-- A step that is not stuck stays so, whatever comes in. -/
theorem Unstuck.steady (h : Unstuck c config engine) (hsteady : Steady engine engine') :
    Unstuck c config engine' := by
  intro hstep
  rcases h (hsteady.step.symm.trans hstep) with ⟨hcan, hnot⟩
  refine ⟨hcan.congr hsteady.height hsteady.round hsteady.stateValidatorSet hsteady.validatorSet, ?_⟩
  rcases hnot with hanswered | houtstanding
  · exact .inl (hanswered.extend hsteady.extend hsteady.round hsteady.lockedRound hsteady.lockedBlock)
  · right
    unfold Outstanding
    rw [hsteady.height, hsteady.round, hsteady.holder]
    rcases houtstanding with htimer | hqueued | hholder
    · exact .inl (hsteady.timers.subset htimer)
    · exact .inr (.inl (hsteady.queue.subset hqueued))
    · exact .inr (.inr hholder)

end Steady

/-! ## Prevoting -/

section Prevoting

variable {c : Crypto} {config : Config} {engine : Engine}

/-- Handling a vote of a signer with power does not throw. -/
theorem ends_handleVote_ok {type : VoteType} {msg : VoteMessage type} {check : Action Engine Unit}
    {address : Address} (hsigner : msg.signerAddress c (config.genesisHash c) = .ok address)
    (hpower : ∃ power, ((engine.state.roundStateOf msg.vote.round).votes type).validatorSet.powerOf
      address = .ok power)
    (hcheck : ∀ engine, Fallible.Ends check engine (fun _ _ => True) fun _ => False) :
    Fallible.Ends (handleVote c config msg check) engine (fun _ _ => True) fun _ => False := by
  rcases hpower with ⟨power, hpower⟩
  unfold handleVote
  rw [Fallible.ends_bind, Fallible.ends_get]
  simp only
  split
  · trivial
  · rw [Fallible.ends_bind]
    refine Action.ends_fromResult ?_ ?_
    · -- the signer is known and has power, so nothing throws
      intro address' hsigner'
      obtain rfl : address = address' := Except.ok.inj (hsigner.symm.trans hsigner')
      split
      · trivial
      · rename_i hhas
        rw [Fallible.ends_bind, Fallible.Ends, addVote]
        simp only [VoteSet.add_eq msg hhas, hpower, gossip, emit, checkRoundSkip, useLock,
          Fallible.ends_bind, Fallible.ends_modify]
        exact hcheck _
    · intro e herror
      rw [hsigner] at herror
      cases herror

/-- A node that can vote sends its vote. -/
theorem sendVote_ok {type : VoteType} {check : VoteMessage type → Action Engine Unit}
    (engine : Engine) (htallied : Tallied c (config.genesisHash c) engine.state)
    (hcan : CanVote c config engine) (blockHash : Option Hash)
    (hcheck : ∀ msg engine, Fallible.Ends (check msg) engine (fun _ _ => True) fun _ => False) :
    ∃ engine', sendVote c config type (fun msg => handleVote c config msg (check msg)) blockHash
      engine = .ok () engine' := by
  suffices hends : Fallible.Ends (sendVote c config type
      (fun msg => handleVote c config msg (check msg)) blockHash) engine (fun _ _ => True)
        fun _ => False by
    rcases hends.exists_ok with ⟨_, engine', hok, -⟩
    exact ⟨engine', hok⟩
  unfold sendVote
  rw [Fallible.ends_bind, Fallible.ends_get]
  cases hkey : config.keyPair with
  | none => trivial
  | some keyPair =>
      simp only
      split
      · trivial
      · rename_i hvalidator
        rcases hcan (not_not.mp hvalidator) with ⟨hheight, hround, hweight⟩
        rw [Fallible.ends_bind]
        refine Action.ends_fromResult ?_ ?_
        · intro msg hmsg
          rcases ConsensusMessage.signVote_eq_ok hmsg with ⟨hvote, hsigner⟩
          refine ends_handleVote_ok hsigner ?_ (hcheck msg)
          -- the votes of a round are those of the validators of the height
          have hset := (htallied.counted type msg.vote.round).validatorSet
          rw [hset]
          have haddress : keyPair.address c ∈ config.address c := by simp [Config.address, hkey]
          exact ⟨_, ValidatorSet.weight_pos_iff.mp (hweight _ haddress)⟩
        · intro e herror
          have hok : ∃ msg, ConsensusMessage.signVote c type ⟨engine.state.height,
              engine.state.round, blockHash.getD Hash.zero⟩ (config.genesisHash c) keyPair = .ok msg :=
            ConsensusMessage.signVote_isOk_iff.mpr ⟨hheight, hround⟩
          rw [herror] at hok
          rcases hok with ⟨msg, hmsg⟩
          cases hmsg

theorem sendPrevoteMessage_ok (engine : Engine)
    (htallied : Tallied c (config.genesisHash c) engine.state)
    (hcan : CanVote c config engine) (blockHash : Option Hash) :
    ∃ engine', sendPrevoteMessage c config blockHash engine = .ok () engine' :=
  sendVote_ok engine htallied hcan blockHash fun _ _ => trivial

theorem sendPrecommitMessage_ok (engine : Engine)
    (htallied : Tallied c (config.genesisHash c) engine.state)
    (hcan : CanVote c config engine) (blockHash : Option Hash) :
    ∃ engine', sendPrecommitMessage c config blockHash engine = .ok () engine' :=
  sendVote_ok engine htallied hcan blockHash fun _ _ => trivial

/-- `doPropose` prevotes where it has a prevote for the proposal. -/
theorem Answered.leaves (hanswered : Answered c engine.state)
    (htallied : Tallied c (config.genesisHash c) engine.state) (hcan : CanVote c config engine) :
    Leaves c config engine := by
  intro world
  rcases hanswered with ⟨msg, hmsg, hanswer⟩
  -- whatever it votes for, the vote goes out
  have hsend : ∀ blockHash, ∃ engine', (do
      sendPrevoteMessage c config blockHash
      return some Await.sendPrevoteMessage : Action Engine (Option Await)) engine =
        .ok (some .sendPrevoteMessage) engine' := by
    intro blockHash
    rcases sendPrevoteMessage_ok engine htallied hcan blockHash with ⟨engine', hok⟩
    exact ⟨engine', Fallible.bind_ok hok⟩
  rw [doPropose, Fallible.get_bind]
  simp only [Option.mem_def.mp hmsg, promiseIsTruthy]
  split
  · exact hsend _
  · split
    · exact hsend _
    · rename_i hnil
      split
      · exact hsend _
      · rename_i hother
        split
        · exact hsend _
        · -- no test has let the proposal pass
          rename_i hmajority
          exfalso
          rcases not_or.mp hother with ⟨hlocked, hdiffers⟩
          have hlater : engine.state.lockedRound ≤ msg.proposal.lockedRound := by
            by_contra hearlier
            exact hnil ⟨Nat.lt_of_not_le hearlier, hdiffers⟩
          rcases hanswer with hzero | ⟨block, hblock, hsame⟩ | hearlier | ⟨vote, hvote, hhash⟩
          · exact hlocked hzero
          · exact hdiffers ((Option.any_eq_true _ _).mpr ⟨block, hblock, decide_eq_true hsame⟩)
          · omega
          · exact hmajority ⟨hlater, (Option.any_eq_true _ _).mpr ⟨vote, hvote, decide_eq_true hhash⟩⟩

theorem Unstuck.notStuck (h : Unstuck c config engine)
    (htallied : Tallied c (config.genesisHash c) engine.state) : NotStuck c config engine := by
  intro _ hstep
  rcases h hstep with ⟨hcan, hanswered | houtstanding⟩
  · exact .inl (hanswered.leaves htallied hcan)
  · exact .inr houtstanding

end Prevoting

/-! ## Tasks -/

/-- The code stays away from the Propose step, and does not give the lock back. -/
def away : Fallible.Progress Engine where
  rel engine engine' := engine'.holder = engine.holder ∧
    (engine.state.step ≠ .propose → engine'.state.step ≠ .propose)
  refl _ := ⟨rfl, id⟩
  trans h h' := ⟨h'.1.trans h.1, h'.2 ∘ h.2⟩

section Tasks

variable {c : Crypto} {config : Config} {engine engine' : Engine}

theorem Steady.away (h : Steady engine engine') : ChainCore.away.rel engine engine' :=
  ⟨h.holder, fun hstep => h.step.symm ▸ hstep⟩

theorem away_setStep (step : Step) (hstep : step ≠ .propose) :
    Fallible.Respects away (setStep step) :=
  .modify fun _ => ⟨rfl, fun _ => hstep⟩

theorem away_setTimeout (timer : Timer) : Fallible.Respects away (setTimeout timer) :=
  .modify fun _ => ⟨rfl, id⟩

theorem away_sendPrecommitMessage (blockHash : Option Hash) :
    Fallible.Respects away (sendPrecommitMessage c config blockHash) :=
  fun engine => Steady.away (steady_sendPrecommitMessage blockHash engine)

theorem away_waitPrevote : Fallible.Respects away waitPrevote := by
  refine Fallible.Respects.get.bind ?_
  intro engine
  simp only
  split
  · exact (away_setTimeout _).bind fun _ => (away_setStep .prevoteWait nofun).bind fun _ => .pure _
  · exact .pure _

theorem away_doPrevoteOrWait : Fallible.Respects away (doPrevoteOrWait c config) := by
  refine Fallible.Respects.get.bind ?_
  intro engine
  simp only
  split
  · exact away_waitPrevote
  · split
    · refine Fallible.Respects.bind (.modify fun _ => ⟨rfl, id⟩) ?_
      intro _
      exact (away_sendPrecommitMessage _).bind fun _ => .pure _
    · split
      · exact (away_sendPrecommitMessage _).bind fun _ => .pure _
      · exact away_waitPrevote

theorem away_waitPrecommit : Fallible.Respects away waitPrecommit := by
  refine Fallible.Respects.get.bind ?_
  intro engine
  simp only
  split
  · exact (away_setTimeout _).bind fun _ =>
      (away_setStep .precommitWait nofun).bind fun _ => .pure _
  · exact .pure _

theorem away_commitBlock (precommit : VoteSet .precommit) (block : Block) :
    Fallible.Respects away (commitBlock precommit block) := by
  unfold commitBlock
  split
  · exact .throw _
  · refine Fallible.Respects.get.bind ?_
    intro engine
    exact Fallible.Respects.bind (.modify fun _ => ⟨rfl, id⟩) fun _ => away_setStep .committed nofun

theorem away_doPrecommitOrWait : Fallible.Respects away (doPrecommitOrWait c) := by
  refine Fallible.Respects.get.bind ?_
  intro engine
  simp only
  split
  · exact away_waitPrecommit
  · split
    · exact (away_commitBlock _ _).bind fun _ => .pure _
    · split
      · exact Fallible.Respects.bind (.modify fun _ => ⟨rfl, fun _ => nofun⟩) fun _ => .pure _
      · exact away_waitPrecommit

variable (c config) in
/-- Nobody holds the lock, and the Propose step is not stuck. -/
structure Calm (engine : Engine) : Prop where
  free : engine.holder = none
  unstuck : Unstuck c config engine

theorem Calm.steady (h : Calm c config engine) (hsteady : Steady engine engine') :
    Calm c config engine' :=
  ⟨hsteady.holder.trans h.free, h.unstuck.steady hsteady⟩

theorem Calm.away (hfree : engine.holder = none) (hstep : engine.state.step ≠ .propose)
    (haway : ChainCore.away.rel engine engine') : Calm c config engine' :=
  ⟨haway.1.trans hfree, fun hpropose => absurd hpropose (haway.2 hstep)⟩

/-- The lock is taken again, or given back. -/
theorem Calm.settle {result : EStateM.Result Error Engine (Option Await)}
    (h : Calm c config (Fallible.final result)) (task : Task) :
    Unstuck c config (ChainCore.settle task result) := by
  cases result with
  | error e engine' => exact h.unstuck
  | ok await engine' =>
      cases await with
      | none => exact h.unstuck
      | some await =>
          intro hstep
          rcases h.unstuck hstep with ⟨hcan, hnot⟩
          refine ⟨hcan, ?_⟩
          rcases hnot with hanswered | htimer | hqueued | hholder
          · exact .inl hanswered
          · exact .inr (.inl htimer)
          · exact .inr (.inr (.inl hqueued))
          · have hfree : engine'.holder = none := h.free
            change engine'.holder = _ at hholder
            rw [hfree] at hholder
            cases hholder

/-- The node proposes, or it waits for the proposal of another and sets a timeout. -/
theorem Calm.enterPropose (h : Calm c config engine) (hcan : CanVote c config engine)
    (transactions : Option (List Transaction)) :
    Calm c config (Fallible.final (ChainCore.enterPropose c config transactions engine)) := by
  rw [ChainCore.enterPropose.eq_def, Fallible.get_bind]
  cases hproposes : isProposer c config engine with
  | error e =>
      rw [Action.fromResult_bind_error rfl]
      exact h
  | ok proposes =>
      rw [Action.fromResult_bind_ok rfl]
      split
      · split
        · exact h.steady (respects_sendProposalMessage steady_handleProposal _ engine)
        · exact h
      · refine ⟨h.free, fun _ => ⟨hcan, .inr (.inl ?_)⟩⟩
        exact List.mem_append_right _ (List.mem_singleton_self _)

theorem Calm.doNewRound (h : Calm c config engine) (hcan : CanVote c config engine)
    (hknown : ∀ msg ∈ engine.state.currentRoundState.proposal, Answerable c engine.state msg) :
    Calm c config (Fallible.final (ChainCore.doNewRound c config engine)) := by
  rw [ChainCore.doNewRound.eq_def, Fallible.get_bind]
  split
  · rename_i hsome
    rcases Option.isSome_iff_exists.mp hsome with ⟨msg, hmsg⟩
    exact ⟨h.free, fun _ => ⟨hcan, .inl ⟨msg, hmsg, hknown msg hmsg⟩⟩⟩
  · split
    · exact h.enterPropose hcan none
    · split
      · exact h.enterPropose hcan none
      · exact h

theorem Calm.checkAppState (h : Calm c config engine) (hcan : CanVote c config engine)
    (block : Block) :
    Calm c config (Fallible.final (ChainCore.checkAppState c config block engine)) := by
  rw [ChainCore.checkAppState.eq_def, Fallible.get_bind]
  split
  · exact h.enterPropose hcan none
  · cases hhash : engine.validatorSet.hash c with
    | error e =>
        rw [Action.fromResult_bind_error rfl]
        exact h
    | ok validatorSetHash =>
        rw [Action.fromResult_bind_ok rfl]
        split
        · exact h.enterPropose hcan none
        · exact h

/-- The code of a new step has nothing to do with the Propose step. -/
theorem Unstuck.left (step : Step) (hstep : step ≠ .propose) (task : Task) :
    Unstuck c config (ChainCore.settle task
      ((do setStep step; return none : Action Engine (Option Await)) engine)) :=
  fun hpropose => absurd hpropose hstep

/-- A task goes on after an `await`. -/
theorem Unstuck.resume {task : Task} {await : Await} {answer : Answer}
    {action : Action Engine (Option Await)} (h : Unstuck c config engine)
    (hguarded : ProposeGuarded c config engine (.resume answer))
    (hholder : engine.holder = some (task, await))
    (hresume : await.resume c config answer = some action) :
    Unstuck c config (ChainCore.settle task (action { engine with holder := none })) := by
  -- only the prevote of the timeout ends what is outstanding by leaving the step
  have hcalm : await ≠ .sendPrevoteMessage → Calm c config { engine with holder := none } := by
    refine fun hother => ⟨rfl, fun hstep => ?_⟩
    rcases h hstep with ⟨hcan, hanswered | htimer | hqueued | hheld⟩
    · exact ⟨hcan, .inl hanswered⟩
    · exact ⟨hcan, .inr (.inl htimer)⟩
    · exact ⟨hcan, .inr (.inr (.inl hqueued))⟩
    · rw [hholder] at hheld
      cases hheld
      exact absurd rfl hother
  have hcan := hguarded.resumed answer task await rfl hholder
  cases Await.resumes hresume with
  | lastBlock => exact ((hcalm nofun).checkAppState (hcan rfl) _).settle task
  | noTransactions => exact Calm.settle (hcalm nofun) task
  | newRoundTransactions => exact ((hcalm nofun).enterPropose (hcan rfl) _).settle task
  | proposeTransactions =>
      exact ((hcalm nofun).steady
        (respects_sendProposalMessage steady_handleProposal _ _)).settle task
  | lastConsensus =>
      exact ((hcalm nofun).steady
        (respects_constructAndPropose steady_handleProposal _ _ _ _ _)).settle task
  | sendProposalMessage =>
      -- the step is entered with the proposal of the node itself, and the guard has its answer
      exact fun _ => ⟨hcan rfl, .inl (hguarded.proposed answer task rfl hholder)⟩
  | sendPrevoteMessage => exact Unstuck.left .prevote nofun task
  | sendPrecommitMessage => exact Unstuck.left .precommit nofun task
  | commitBlock => exact Calm.settle (hcalm nofun) task
  | failed hfail =>
      -- a prevote that is sent cannot fail
      have hother : await ≠ .sendPrevoteMessage := by
        rintro rfl
        cases hfail
      exact Calm.settle (hcalm hother) task

/-- The propose timeout of the round prevotes with the lock in its hands. -/
theorem Unstuck.proposeTimeout {queue : List Task} {height round : Nat} (h : Unstuck c config engine)
    (htallied : Tallied c (config.genesisHash c) engine.state) (hfree : engine.holder = none)
    (hqueue : engine.queue = .proposeTimeout height round :: queue) :
    Unstuck c config (ChainCore.settle (.proposeTimeout height round)
      (runProposeTimeout c config height round { engine with queue })) := by
  rw [runProposeTimeout, Fallible.get_bind]
  split
  · rename_i hnow
    rcases hnow with ⟨rfl, rfl, hstep⟩
    rcases h hstep with ⟨hcan, -⟩
    -- the node can vote, so the task comes to its prevote for nothing and is held there
    rcases sendPrevoteMessage_ok { engine with queue } htallied hcan none with ⟨engine', hok⟩
    have hsteady : Steady { engine with queue } engine' := by
      have hfinal : Steady { engine with queue }
          (Fallible.final (sendPrevoteMessage c config none { engine with queue })) :=
        steady_sendPrevoteMessage none _
      rwa [hok] at hfinal
    rw [Fallible.bind_ok hok]
    intro _
    refine ⟨hcan.congr hsteady.height hsteady.round hsteady.stateValidatorSet hsteady.validatorSet,
      .inr (.inr (.inr ?_))⟩
    change some _ = some (Task.proposeTimeout engine'.state.height engine'.state.round, _)
    rw [hsteady.height, hsteady.round]
  · -- the timeout is one of another round, or the step has been left
    rename_i hother
    intro hstep
    rcases h hstep with ⟨hcan, hanswered | htimer | hqueued | hheld⟩
    · exact ⟨hcan, .inl hanswered⟩
    · exact ⟨hcan, .inr (.inl htimer)⟩
    · rw [hqueue] at hqueued
      rcases List.mem_cons.mp hqueued with heq | hlater
      · cases heq
        exact absurd ⟨rfl, rfl, hstep⟩ hother
      · exact ⟨hcan, .inr (.inr (.inl hlater))⟩
    · rw [hfree] at hheld
      cases hheld

theorem steady_checkValidBlock (height round : Nat) :
    Fallible.Respects steady (runCheckValidBlock c height round) := by
  refine .modify fun engine => ?_
  simp only
  split
  · exact steady.refl engine
  · split
    · exact steady.refl engine
    · split
      · exact ⟨.of_roundStateOf rfl, rfl, rfl, rfl, rfl, rfl, rfl, rfl, List.prefix_rfl,
          List.prefix_rfl, rfl⟩
      · exact steady.refl engine

/-- The round is skipped to its NewRound step, or stays. -/
theorem Calm.checkRoundSkip (h : Calm c config engine) (height round : Nat) (type : VoteType) :
    Calm c config (Fallible.final (runCheckRoundSkip height round type engine)) := by
  change Calm c config { engine with state := if _ then _ else _ }
  split
  · exact h
  · split
    · exact ⟨h.free, fun hpropose => nomatch hpropose⟩
    · exact h

/-- A task gets the lock. -/
theorem Unstuck.task {world : World} {task : Task} {queue : List Task} (h : Unstuck c config engine)
    (htallied : Tallied c (config.genesisHash c) engine.state)
    (hguarded : ProposeGuarded c config engine (.acquire world)) (hfree : engine.holder = none)
    (hqueue : engine.queue = task :: queue) :
    Unstuck c config (ChainCore.settle task (task.run c config world { engine with queue })) := by
  -- any other task leaves the queued timeout where it is
  have hcalm : (∀ height round, task ≠ .proposeTimeout height round) →
      Calm c config { engine with queue } := by
    refine fun hother => ⟨hfree, fun hstep => ?_⟩
    rcases h hstep with ⟨hcan, hanswered | htimer | hqueued | hheld⟩
    · exact ⟨hcan, .inl hanswered⟩
    · exact ⟨hcan, .inr (.inl htimer)⟩
    · rw [hqueue] at hqueued
      rcases List.mem_cons.mp hqueued with heq | hlater
      · exact absurd heq.symm (hother _ _)
      · exact ⟨hcan, .inr (.inr (.inl hlater))⟩
    · exact ⟨hcan, .inr (.inr (.inr hheld))⟩
  -- outside of the propose step there is nothing to show
  have haway : engine.state.step ≠ .propose → ∀ action : Action Engine (Option Await),
      Fallible.Respects away action →
        Unstuck c config (ChainCore.settle task (action { engine with queue })) :=
    fun hstep action haction => (Calm.away hfree hstep (haction { engine with queue })).settle task
  cases task with
  | proceedConsensus =>
      rw [Task.run, ChainCore.proceedConsensus, Fallible.get_bind]
      cases hstep : engine.state.step with
      | newRound =>
          rcases hguarded.started world queue rfl hfree hqueue hstep with ⟨hcan, hknown⟩
          exact ((hcalm (by simp)).doNewRound hcan hknown).settle _
      | propose =>
          have hsteady : Fallible.Respects ChainCore.steady (doPropose c config world) :=
            Parts.doPropose steady_sendPrevoteMessage world
          exact ((hcalm (by simp)).steady (hsteady _)).settle _
      | prevote => exact haway (by simp [hstep]) _ away_doPrevoteOrWait
      | prevoteWait => exact haway (by simp [hstep]) _ away_doPrevoteOrWait
      | precommit => exact haway (by simp [hstep]) _ away_doPrecommitOrWait
      | precommitWait => exact haway (by simp [hstep]) _ away_doPrecommitOrWait
      | committed => exact haway (by simp [hstep]) _ (.pure _)
  | proposeTimeout height round => exact h.proposeTimeout htallied hfree hqueue
  | checkValidBlock height round =>
      have hsteady := (steady_checkValidBlock (c := c) height round).bind
        fun _ => Fallible.Respects.pure (none : Option Await)
      exact Calm.settle ((hcalm (by simp)).steady (hsteady _)) _
  | checkRoundSkip height round type =>
      exact Calm.settle ((hcalm (by simp)).checkRoundSkip height round type) _
  | newHeight height appStateHash nextValidatorSetRoot eventTransactionRoot =>
      exact fun hpropose => Step.noConfusion hpropose

end Tasks

/-! ## Runs -/

section Runs

variable {c : Crypto} {config : Config} {engine : Engine} {event : Event}

/-- A timer that is not the propose timeout of the round does not matter. -/
theorem Unstuck.erase (timer : Timer) (h : Unstuck c config engine)
    (hother : Timer.propose engine.state.height engine.state.round ≠ timer) :
    Unstuck c config { engine with timers := engine.timers.erase timer } := by
  intro hstep
  rcases h hstep with ⟨hcan, hanswered | htimer | houtstanding⟩
  · exact ⟨hcan, .inl hanswered⟩
  · exact ⟨hcan, .inr (.inl ((List.mem_erase_of_ne hother).mpr htimer))⟩
  · exact ⟨hcan, .inr (.inr houtstanding)⟩

/-- A timer runs off: the propose timeout of the round waits for the lock instead. -/
theorem Unstuck.timeout {timer : Timer} (h : Unstuck c config engine) :
    Unstuck c config
      (Fallible.final (timer.run c config { engine with timers := engine.timers.erase timer })) := by
  cases timer with
  | propose height round =>
      -- the timer of this round: its task is in the queue now
      by_cases heq : Timer.propose engine.state.height engine.state.round = .propose height round
      · intro hstep
        rcases h hstep with ⟨hcan, -⟩
        refine ⟨hcan, .inr (.inr (.inl ?_))⟩
        cases heq
        exact List.mem_append_right _ (List.mem_singleton_self _)
      · exact (h.erase _ heq).steady (steady_useLock _ _)
  | prevote height round =>
      have hrun : Fallible.Respects ChainCore.steady (Timer.run c config (.prevote height round)) := by
        refine Fallible.Respects.get.bind ?_
        intro engine
        simp only
        split
        · exact (steady_sendPrecommitMessage _).bind fun _ => .modify fun engine =>
            ⟨.of_roundStateOf rfl, rfl, rfl, rfl, rfl, rfl, rfl, rfl, List.prefix_rfl,
              List.prefix_rfl, rfl⟩
        · exact .pure _
      exact (h.erase (.prevote height round) Timer.noConfusion).steady (hrun _)
  | precommit height round =>
      have herased := h.erase (.precommit height round) Timer.noConfusion
      rw [Timer.run, Fallible.get_bind]
      split
      -- a new round starts, and it is not at the propose step yet
      · exact fun hpropose => Step.noConfusion hpropose
      · exact herased

theorem Unstuck.step (h : Unstuck c config engine)
    (htallied : Tallied c (config.genesisHash c) engine.state)
    (hguarded : ProposeGuarded c config engine event) :
    Unstuck c config (engine.step c config event) := by
  cases event with
  | start =>
      rw [Engine.step]
      split
      · exact h
      · exact h
  | stop => exact h
  | loop =>
      rw [Engine.step]
      split
      · exact h.steady ⟨.of_roundStateOf rfl, rfl, rfl, rfl, rfl, rfl, rfl, rfl, List.prefix_rfl,
          List.prefix_append _ _, rfl⟩
      · exact h
  | newConsensusMessage msg => exact h.steady (steady_newConsensusMessage msg engine)
  | acquire world =>
      rw [Engine.step]
      split
      · rename_i task queue hfree hqueue
        exact h.task htallied hguarded hfree hqueue
      · exact h
  | resume answer =>
      rw [Engine.step]
      split
      · rename_i task await hholder
        split
        · rename_i action hresume
          exact h.resume hguarded hholder hresume
        · exact h
      · exact h
  | timeout timer =>
      rw [Engine.step]
      split
      · exact h.timeout
      · exact h
  | prevoteTimeout =>
      rw [Engine.step]
      split
      · exact fun hpropose => Step.noConfusion hpropose
      · exact h
  | setNewHeight height appStateHash validatorSet nextValidatorSetRoot eventTransactionRoot =>
      intro hstep
      have hcan := hguarded.newHeight height appStateHash validatorSet nextValidatorSetRoot
        eventTransactionRoot rfl hstep
      -- queueing a height takes nothing away from what will move the step on
      rcases h hstep with ⟨-, hanswered | htimer | hqueued | hheld⟩
      · exact ⟨hcan, .inl hanswered⟩
      · exact ⟨hcan, .inr (.inl htimer)⟩
      · exact ⟨hcan, .inr (.inr (.inl (List.mem_append_left _ hqueued)))⟩
      · exact ⟨hcan, .inr (.inr (.inr hheld))⟩

end Runs

/-- In every run whose steps are guarded, the Propose step of a validator is never stuck. -/
theorem propose_not_stuck (c : Crypto) (config : Config) (initialValidatorSet : ValidatorSet)
    (events : List Event)
    (hguarded : Along (Engine.step c config) (Engine.new c initialValidatorSet) events
      (ProposeGuarded c config)) :
    Throughout (Engine.step c config) (Engine.new c initialValidatorSet) events
      (NotStuck c config) := by
  have hboth : Throughout (Engine.step c config) (Engine.new c initialValidatorSet) events
      fun engine => Tallied c (config.genesisHash c) engine.state ∧ Unstuck c config engine := by
    refine hguarded.throughout ?_ ?_
    · exact ⟨tallied_of_none rfl, fun hpropose => nomatch hpropose⟩
    · rintro engine event ⟨htallied, hunstuck⟩ hevent
      exact ⟨htallied.step event, hunstuck.step htallied hevent⟩
  intro before after hevents
  rcases hboth before after hevents with ⟨htallied, hunstuck⟩
  exact hunstuck.notStuck htallied

section Sample

variable {c : Crypto} {config : Config} {engine : Engine} {event : Event}

instance : Decidable (CanVote c config engine) :=
  inferInstanceAs (Decidable (_ → _ ∧ _ ∧ ∀ address ∈ config.address c, _))

instance (state : State) (msg : ProposalMessage) : Decidable (Answerable c state msg) :=
  inferInstanceAs (Decidable (_ ∨ (∃ block ∈ state.lockedBlock, _) ∨ _ ∨
    ∃ vote ∈ (state.roundStateOf msg.proposal.lockedRound).prevote.twoThirdsMajority, _))

instance (state : State) : Decidable (Answered c state) :=
  inferInstanceAs (Decidable (∃ msg ∈ state.currentRoundState.proposal, Answerable c state msg))

theorem proposeGuarded_iff : ProposeGuarded c config engine event ↔
    match event with
    | .acquire _ => engine.holder = none → engine.queue.head? = some .proceedConsensus →
        engine.state.step = .newRound → CanVote c config engine ∧
          ∀ msg ∈ engine.state.currentRoundState.proposal, Answerable c engine.state msg
    | .resume _ => ∀ held ∈ engine.holder,
        (held.2.entersPropose = true → CanVote c config engine) ∧
          (held.2 = .sendProposalMessage → Answered c engine.state)
    | .setNewHeight _ _ validatorSet _ _ =>
        engine.state.step = .propose → CanVote c config { engine with validatorSet }
    | _ => True := by
  constructor
  · intro h
    -- each field of the guard is about one kind of event
    cases event with
    | acquire world =>
        intro hfree hhead hstep
        rcases List.head?_eq_some_iff.mp hhead with ⟨queue, hqueue⟩
        exact h.started world queue rfl hfree hqueue hstep
    | resume answer =>
        rintro ⟨task, await⟩ hheld
        refine ⟨h.resumed answer task await rfl hheld, ?_⟩
        rintro rfl
        exact h.proposed answer task rfl hheld
    | setNewHeight height appStateHash validatorSet nextValidatorSetRoot eventTransactionRoot =>
        exact h.newHeight height appStateHash validatorSet nextValidatorSetRoot
          eventTransactionRoot rfl
    | _ => trivial
  · intro h
    constructor
    · rintro world queue rfl hfree hqueue hstep
      exact h hfree (by rw [hqueue]; rfl) hstep
    · rintro answer task await rfl hheld hawait
      exact (h _ hheld).1 hawait
    · rintro answer task rfl hheld
      exact (h _ hheld).2 rfl
    · rintro height appStateHash validatorSet nextValidatorSetRoot eventTransactionRoot rfl hstep
      exact h hstep

instance : Decidable (ProposeGuarded c config engine event) :=
  match event, @proposeGuarded_iff c config engine event with
  | .acquire _, h => decidable_of_iff _ h.symm
  | .resume _, h => decidable_of_iff _ h.symm
  | .setNewHeight _ _ _ _ _, h => decidable_of_iff _ h.symm
  | .start, h => decidable_of_iff _ h.symm
  | .stop, h => decidable_of_iff _ h.symm
  | .loop, h => decidable_of_iff _ h.symm
  | .newConsensusMessage _, h => decidable_of_iff _ h.symm
  | .timeout _, h => decidable_of_iff _ h.symm
  | .prevoteTimeout, h => decidable_of_iff _ h.symm

/-- The only validator proposes the genesis block, and has a prevote for it. -/
theorem proposeGuarded_validatorRun :
    Along (Engine.step .transparent (Nodes.validatorAndObserver.config true))
      (Engine.new .transparent soleValidatorSet) Nodes.validatorRun
      (ProposeGuarded .transparent (Nodes.validatorAndObserver.config true)) := by
  decide +kernel

theorem propose_not_stuck_validator :
    Throughout (Engine.step .transparent (Nodes.validatorAndObserver.config true))
      (Engine.new .transparent soleValidatorSet) Nodes.validatorRun
      (NotStuck .transparent (Nodes.validatorAndObserver.config true)) :=
  propose_not_stuck .transparent _ soleValidatorSet Nodes.validatorRun proposeGuarded_validatorRun

/-- A proposal of the strong validator. -/
def strongProposal (round lockedRound : Nat) (block : Block) : List ConsensusMessage :=
  (ConsensusMessage.signProposal .transparent ⟨1, round, lockedRound, block⟩
    (sampleGenesis.hash .transparent) (Consensus.sampleKey 2)).toOption.toList.map .proposal

/-- A prevote of the strong validator. -/
def strongPrevote (round : Nat) (blockHash : Hash) : List ConsensusMessage :=
  (ConsensusMessage.signVote .transparent .prevote ⟨1, round, blockHash⟩
    (sampleGenesis.hash .transparent) (Consensus.sampleKey 2)).toOption.toList.map .prevote

/-- The weak validator locks a block in the first round, and skips to the third one by a prevote of
the strong validator.  When that round starts it knows its proposal already: another block, for which
the proposer says to have a majority of prevotes in the second round. -/
def knownProposalRun : List Event :=
  let acquire := Event.acquire Nodes.sampleWorld
  [.setNewHeight 1 Hash.zero unevenValidatorSet Hash.zero Hash.zero, acquire, .start] ++
    (strongProposal 1 0 misplacedBlock ++
      strongPrevote 1 (misplacedBlock.hash .transparent)).map .newConsensusMessage ++
    [acquire, acquire, .loop, acquire] ++
    [.loop, acquire, .resume .done, acquire, acquire] ++
    [.loop, acquire, .resume .done, acquire] ++
    (strongPrevote 3 Hash.zero ++ strongProposal 3 2 sampleGenesis).map .newConsensusMessage ++
    [acquire, acquire, .loop, acquire]

def afterKnownProposal : Engine :=
  (Engine.new .transparent unevenValidatorSet).run .transparent
    (Nodes.validatorAndObserver.config true) knownProposalRun

/-- Nothing is set and nothing is waiting, and `doPropose` does nothing. -/
theorem idle_afterKnownProposal :
    isValidator .transparent (Nodes.validatorAndObserver.config true) afterKnownProposal = true ∧
      afterKnownProposal.state.step = .propose ∧ afterKnownProposal.state.round = 3 ∧
      afterKnownProposal.timers = [] ∧ afterKnownProposal.queue = [] ∧
      afterKnownProposal.holder = none ∧
      (match doPropose .transparent (Nodes.validatorAndObserver.config true) Nodes.sampleWorld
          afterKnownProposal with
        | .ok await _ => await.isNone
        | .error _ _ => false) = true := by
  decide +kernel

theorem stuck_with_known_proposal :
    ¬ Throughout (Engine.step .transparent (Nodes.validatorAndObserver.config true))
      (Engine.new .transparent unevenValidatorSet) knownProposalRun
      (NotStuck .transparent (Nodes.validatorAndObserver.config true)) := by
  rcases idle_afterKnownProposal with ⟨hvalidator, hstep, -, htimers, hqueue, hholder, hnothing⟩
  intro hthroughout
  have hnot : NotStuck .transparent (Nodes.validatorAndObserver.config true) afterKnownProposal :=
    hthroughout knownProposalRun [] (List.append_nil _).symm
  rcases hnot hvalidator hstep with hleaves | htimer | hqueued | hheld
  · rcases hleaves Nodes.sampleWorld with ⟨engine', hok⟩
    rw [hok] at hnothing
    cases hnothing
  · rw [htimers] at htimer
    cases htimer
  · rw [hqueue] at hqueued
    cases hqueued
  · rw [hholder] at hheld
    cases hheld

end Sample

end ChainCore
end UniqysKit
