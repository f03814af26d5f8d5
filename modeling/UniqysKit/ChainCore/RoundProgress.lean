import UniqysKit.ChainCore.ProposeStep

/-!
# A round that is decided comes to its end

Once a node has the proposal of its round, and the prevotes and the precommits of more than two
thirds of the power for the block of it, it needs nothing else from the others: at each of the next
runs of `proceedConsensus` it goes on by one step, and the fourth at the latest commits the block
(`decides`).  Messages, timeouts and other tasks for the lock may come in between, as long as the node
stays in the round.

`Engine.remaining` counts the runs of `proceedConsensus` that are left.
-/

namespace UniqysKit
namespace ChainCore

open Library Engine

/-! ## What is left to do -/

/-- How often `proceedConsensus` must run from this step on, until the block is committed. -/
def Step.remaining : Step → Nat
  | .newRound => 4
  | .propose => 3
  | .prevote => 2
  | .prevoteWait => 2
  | .precommit => 1
  | .precommitWait => 1
  | .committed => 0

/-- The same for a task that holds the lock: an `await` ends in the step after it. -/
def Await.remaining (step : Step) : Await → Nat
  | .sendProposalMessage => 3
  | .sendPrevoteMessage => 2
  | .sendPrecommitMessage => 1
  | .commitBlock => step.remaining
  | _ => 4

/-- The same of a task that has ended, or awaits something. -/
def Step.remainingAt (step : Step) : Option Await → Nat
  | some await => await.remaining step
  | none => step.remaining

def Engine.remaining (engine : Engine) : Nat :=
  engine.state.step.remainingAt (engine.holder.map Prod.snd)

def Event.isSetNewHeight : Event → Bool
  | .setNewHeight _ _ _ _ _ => true
  | _ => false

/-- The event starts a run of `proceedConsensus`. -/
def Engine.proceeds (engine : Engine) (event : Event) : Bool :=
  match event, engine.holder, engine.queue with
  | .acquire _, none, .proceedConsensus :: _ => true
  | _, _, _ => false

theorem Step.remaining_le (step : Step) : step.remaining ≤ 4 := by
  cases step with
  | _ => decide

theorem Await.remaining_le (step : Step) (await : Await) : await.remaining step ≤ 4 := by
  cases await with
  | commitBlock => exact step.remaining_le
  | _ => simp [Await.remaining]

theorem Step.remainingAt_le (step : Step) (await : Option Await) : step.remainingAt await ≤ 4 := by
  cases await with
  | none => exact step.remaining_le
  | some await => exact await.remaining_le step

/-- Only a commit leaves nothing to do. -/
theorem Step.remainingAt_pos {step : Step} (h : step ≠ .committed) (await : Option Await) :
    0 < step.remainingAt await := by
  have hstep : 0 < step.remaining := by
    cases step with
    | committed => exact absurd rfl h
    | _ => decide
  cases await with
  | none => exact hstep
  | some await =>
      cases await with
      | commitBlock => exact hstep
      | _ => simp [Step.remainingAt, Await.remaining]

section Definitions

variable (c : Crypto) (config : Config)

/-- The proposal of the round is known, with this block, and the majority that is recorded for the
prevotes and for the precommits is for it. -/
structure Supplied (block : Block) (state : State) : Prop where
  proposal : ∃ msg ∈ state.currentRoundState.proposal, msg.proposal.block = block
  majority : ∀ type, ∃ vote ∈ (state.currentRoundState.votes type).twoThirdsMajority,
    vote.blockHash = block.hash c

/-- A node that has what it needs of its round, has not committed, and can vote if it is a validator.
`doPropose` has a prevote for the proposal, and no other height is to be entered. -/
structure Ready (block : Block) (engine : Engine) : Prop where
  supplied : Supplied c block engine.state
  answered : Answered c engine.state
  canVote : CanVote c config engine
  pending : engine.pendingHeights = []
  undecided : engine.state.step ≠ .committed

/-- The event leaves the node in its round, and no other height comes up. -/
structure StaysInRound (engine : Engine) (event : Event) : Prop where
  round : (engine.step c config event).state.round = engine.state.round
  height : event.isSetNewHeight = false

/-- The block was committed at the height. -/
def Commits (height : Nat) (block : Block) (engine : Engine) : Prop :=
  ∃ consensus, .commitBlock height block consensus ∈ engine.trace

end Definitions

/-! ## What the node knows stays -/

section Supplies

variable {c : Crypto} {config : Config} {engine engine' : Engine} {state state' : State}
  {block : Block} {height round : Nat} {vs : ValidatorSet}

variable (c height round vs block) in
/-- A state of the round in which the node has what it needs. -/
structure InRound (state : State) : Prop where
  height : state.height = height
  round : state.round = round
  validatorSet : state.validatorSet = vs
  supplied : Supplied c block state
  answered : Answered c state

/-- What is added to a round takes nothing away from it. -/
theorem InRound.extend (h : InRound c block height round vs state) (hextends : Extends state state')
    (hmajority : ∀ type vote, ((state.roundStateOf round).votes type).twoThirdsMajority = some vote →
      ((state'.roundStateOf round).votes type).twoThirdsMajority = some vote)
    (hheight : state'.height = state.height) (hround : state'.round = state.round)
    (hset : state'.validatorSet = state.validatorSet)
    (hlocked : state'.lockedRound = state.lockedRound)
    (hblock : state'.lockedBlock = state.lockedBlock) : InRound c block height round vs state' := by
  have hcurrent := hround.trans h.round
  refine ⟨hheight.trans h.height, hcurrent, hset.trans h.validatorSet, ⟨?_, ?_⟩,
    h.answered.extend hextends hround hlocked hblock⟩
  · rcases h.supplied.proposal with ⟨msg, hmsg, hproposed⟩
    refine ⟨msg, ?_, hproposed⟩
    rw [State.currentRoundState, hcurrent]
    rw [State.currentRoundState, h.round] at hmsg
    exact hextends.proposal round msg hmsg
  · intro type
    rcases h.supplied.majority type with ⟨vote, hvote, hhash⟩
    refine ⟨vote, ?_, hhash⟩
    rw [State.currentRoundState, hcurrent]
    rw [State.currentRoundState, h.round] at hvote
    exact hmajority type vote hvote

/-- The votes of a round after some were set that keep the majority. -/
theorem majority_setVotes {type : VoteType} {set : VoteSet type} {changed : Nat}
    (hset : ∀ vote, ((state.roundStateOf changed).votes type).twoThirdsMajority = some vote →
      set.twoThirdsMajority = some vote) (type' : VoteType) (round : Nat) (vote : Vote)
    (h : ((state.roundStateOf round).votes type').twoThirdsMajority = some vote) :
    (((state.setRoundState changed ((state.roundStateOf changed).setVotes type set)).roundStateOf
      round).votes type').twoThirdsMajority = some vote := by
  rcases state.votes_setVotes changed type set type' round with ⟨rfl, rfl⟩ | hsame
  · rw [State.roundStateOf_setRoundState, RoundState.votes_setVotes]
    exact hset vote h
  · rw [hsame]
    exact h

/-- A height is entered. -/
theorem enteredHeights_append {entered : Nat} (htrace : engine'.trace = engine.trace ++
    [.newHeight entered vs]) :
    engine'.enteredHeights.length = engine.enteredHeights.length + 1 := by
  rw [enteredHeights, htrace, List.filterMap_append, List.length_append]
  rfl

/-- Only entering a round or a height takes a node out of the round. -/
theorem InRound.change (h : InRound c block height round vs engine.state)
    (hchange : Change c config engine engine') :
    InRound c block height round vs engine'.state ∨ round < engine'.state.round ∨
      engine.enteredHeights.length < engine'.enteredHeights.length := by
  cases hchange with
  | idle hstate _ =>
      rw [hstate]
      exact .inl h
  | proposal _ _ hnone _ hstate _ =>
      rw [hstate]
      refine .inl (h.extend (extends_setProposal hnone) ?_ rfl rfl rfl rfl rfl)
      intro type vote hvote
      rw [State.votes_setProposal]
      exact hvote
  | stranger _ _ _ _ hstate _ =>
      rw [hstate]
      refine .inl (h.extend (extends_setVotes fun _ h => h) ?_ rfl rfl rfl rfl rfl)
      intro type vote hvote
      refine majority_setVotes ?_ type round vote hvote
      exact fun _ h => h
  | vote _ _ _ _ hstate _ =>
      rw [hstate]
      refine .inl (h.extend (extends_setVotes fun _ h => VoteSet.majority_count h) ?_ rfl rfl rfl rfl
        rfl)
      intro type vote hvote
      refine majority_setVotes ?_ type round vote hvote
      exact fun _ h => VoteSet.majority_count h
  | setStep hstate _ =>
      rw [hstate]
      exact .inl (h.extend (.of_roundStateOf rfl) (fun _ _ => id) rfl rfl rfl rfl rfl)
  | @lock vote locked hmajority hblock hstate _ =>
      rw [hstate]
      rcases h.answered with ⟨msg, hmsg, -⟩
      refine .inl ⟨h.height, h.round, h.validatorSet, ⟨h.supplied.proposal, h.supplied.majority⟩,
        msg, hmsg, .inr (.inl ⟨locked, rfl, ?_⟩)⟩
      -- the block that is locked now is the proposed one
      rw [proposedBlock_eq_some hblock]
      rw [RoundState.proposedBlock, Option.mem_def.mp hmsg] at hblock
      simp only at hblock
      split at hblock
      · rename_i hhash
        exact hhash
      · cases hblock
  | validBlock _ _ _ hstate _ =>
      rw [hstate]
      exact .inl (h.extend (.of_roundStateOf rfl) (fun _ _ => id) rfl rfl rfl rfl rfl)
  | newRound hlater hstate _ =>
      rw [hstate]
      refine .inr (.inl ?_)
      rw [← h.round]
      exact hlater
  | newHeight _ htrace =>
      refine .inr (.inr ?_)
      rw [enteredHeights_append htrace]
      exact Nat.lt_succ_self _

/-- Rounds only go up, until a height is entered. -/
theorem Change.round_le (hchange : Change c config engine engine') :
    (engine.state.round ≤ engine'.state.round ∧
      engine'.enteredHeights.length = engine.enteredHeights.length) ∨
      engine.enteredHeights.length < engine'.enteredHeights.length := by
  have hgossip : ∀ {msg : ConsensusMessage}, engine'.trace = engine.trace ++ [.gossip msg] →
      engine'.enteredHeights.length = engine.enteredHeights.length := by
    intro msg htrace
    rw [enteredHeights, htrace, List.filterMap_append]
    exact congrArg List.length (List.append_nil _)
  have hsame : engine'.trace = engine.trace →
      engine'.enteredHeights.length = engine.enteredHeights.length := by
    intro htrace
    rw [enteredHeights, htrace]
    rfl
  cases hchange with
  | idle hstate htrace => exact .inl ⟨(congrArg State.round hstate).ge, hsame htrace⟩
  | proposal _ _ _ _ hstate htrace => exact .inl ⟨(congrArg State.round hstate).ge, hgossip htrace⟩
  | stranger _ _ _ _ hstate htrace => exact .inl ⟨(congrArg State.round hstate).ge, hsame htrace⟩
  | vote _ _ _ _ hstate htrace => exact .inl ⟨(congrArg State.round hstate).ge, hgossip htrace⟩
  | setStep hstate htrace => exact .inl ⟨(congrArg State.round hstate).ge, hsame htrace⟩
  | lock _ _ hstate htrace => exact .inl ⟨(congrArg State.round hstate).ge, hsame htrace⟩
  | validBlock _ _ _ hstate htrace => exact .inl ⟨(congrArg State.round hstate).ge, hsame htrace⟩
  | newRound hlater hstate htrace =>
      exact .inl ⟨hlater.le.trans (congrArg State.round hstate).ge, hsame htrace⟩
  | newHeight _ htrace =>
      right
      rw [enteredHeights_append htrace]
      exact Nat.lt_succ_self _

theorem InRound.step {event : Event} (h : InRound c block height round vs engine.state)
    (hround : (engine.step c config event).state.round = round)
    (hentered : (engine.step c config event).enteredHeights = engine.enteredHeights) :
    InRound c block height round vs (engine.step c config event).state := by
  let entered (trace : List Effect) : Nat := (trace.filterMap Effect.newHeight?).length
  let P (state : State) (trace : List Effect) : Prop :=
    entered engine.trace < entered trace ∨ entered trace = entered engine.trace ∧
      (round < state.round ∨ InRound c block height round vs state)
  have hkept : P (engine.step c config event).state (engine.step c config event).trace := by
    refine @step_keeps c config P engine event (.inr ⟨rfl, .inr h⟩) ?_ ?_
    · rintro before after hchange hbefore
      have hmoves := hchange.round_le
      change _ ∧ entered after.trace = entered before.trace ∨
        entered before.trace < entered after.trace at hmoves
      rcases hbefore with hgrown | ⟨hsame, hlater | hin⟩
      · left
        omega
      · rcases hmoves with ⟨hle, hlength⟩ | hlt
        · exact .inr ⟨hlength.trans hsame, .inl (hlater.trans_le hle)⟩
        · left
          omega
      · rcases hmoves with ⟨-, hlength⟩ | hlt
        · refine .inr ⟨hlength.trans hsame, ?_⟩
          rcases hin.change hchange with hin' | hlater | hlt
          · exact .inr hin'
          · exact .inl hlater
          · change entered before.trace < entered after.trace at hlt
            omega
        · left
          omega
    · intro vote committed
      refine .inr ⟨?_, .inr (h.extend (.of_roundStateOf rfl) (fun _ _ => id) rfl rfl rfl rfl rfl)⟩
      change entered (engine.trace ++ [_]) = _
      simp only [entered, List.filterMap_append]
      exact congrArg List.length (List.append_nil _)
  rcases hkept with hgrown | ⟨-, hlater | hin⟩
  · have hsame : entered (engine.step c config event).trace = entered engine.trace :=
      congrArg List.length hentered
    omega
  · omega
  · exact hin

end Supplies

/-! ## What a task does to the step -/

/-- The step stays or becomes the Propose step, and the lock is where it was. -/
def proposing : Fallible.Progress Engine where
  rel engine engine' := engine'.holder = engine.holder ∧
    (engine'.state.step = engine.state.step ∨ engine'.state.step = .propose)
  refl _ := ⟨rfl, .inl rfl⟩
  trans h h' := by
    refine ⟨h'.1.trans h.1, ?_⟩
    rcases h'.2 with hsame | hpropose
    · rw [hsame]
      exact h.2
    · exact .inr hpropose

section Tasks

variable {c : Crypto} {config : Config} {engine engine' : Engine} {block : Block}

theorem Steady.proposing (h : Steady engine engine') : ChainCore.proposing.rel engine engine' :=
  ⟨h.holder, .inl h.step⟩

theorem proposing_handleProposal (msg : ProposalMessage) :
    Fallible.Respects proposing (handleProposal c config msg) :=
  fun engine => (steady_handleProposal msg engine).proposing

theorem proposing_enterPropose (transactions : Option (List Transaction)) :
    Fallible.Respects proposing (enterPropose c config transactions) :=
  respects_enterPropose proposing_handleProposal (fun _ => .modify fun _ => ⟨rfl, .inl rfl⟩)
    (.modify fun _ => ⟨rfl, .inr rfl⟩) transactions

theorem proposing_checkAppState (block : Block) :
    Fallible.Respects proposing (checkAppState c config block) :=
  respects_checkAppState proposing_handleProposal (fun _ => .modify fun _ => ⟨rfl, .inl rfl⟩)
    (.modify fun _ => ⟨rfl, .inr rfl⟩) block

/-- What is left after a task has ended, or has come to its next `await`. -/
theorem remaining_settle (task : Task) {result : EStateM.Result Error Engine (Option Await)}
    (hfree : (Fallible.final result).holder = none) :
    (settle task result).remaining =
      (Fallible.final result).state.step.remainingAt ((Fallible.value result).join) := by
  cases result with
  | ok await engine' =>
      cases await with
      | none =>
          change engine'.state.step.remainingAt (engine'.holder.map Prod.snd) = _
          rw [show engine'.holder = none from hfree]
          rfl
      | some await => rfl
  | error e engine' =>
      change engine'.state.step.remainingAt (engine'.holder.map Prod.snd) = _
      rw [show engine'.holder = none from hfree]
      rfl

/-- The vote for the block of the proposal, in the round of a node that has what it needs. -/
theorem Supplied.proposedBlock {state : State} (h : Supplied c block state) (type : VoteType) :
    ∃ vote, (state.currentRoundState.votes type).twoThirdsMajority = some vote ∧
      state.currentRoundState.proposedBlock c vote.blockHash = some block := by
  rcases h.proposal with ⟨msg, hmsg, rfl⟩
  rcases h.majority type with ⟨vote, hvote, hhash⟩
  refine ⟨vote, hvote, ?_⟩
  rw [RoundState.proposedBlock, Option.mem_def.mp hmsg]
  simp only
  rw [if_pos hhash]

/-- A run of `proceedConsensus` goes on by one step, and the last one commits. -/
theorem Ready.proceedConsensus (h : Ready c config block engine)
    (htallied : Tallied c (config.genesisHash c) engine.state) (world : World) :
    ∃ await engine', ChainCore.proceedConsensus c config world engine = .ok await engine' ∧
      (Commits engine.state.height block engine' ∨
        engine'.state.step.remainingAt await + 1 ≤ engine.state.step.remaining ∧
          engine'.state.step ≠ .committed ∧ engine'.holder = engine.holder) := by
  have hprevote : engine.state.step = .prevote ∨ engine.state.step = .prevoteWait →
      ∃ await engine', doPrevoteOrWait c config engine = .ok await engine' ∧
        engine'.state.step.remainingAt await = 1 ∧ engine'.state.step ≠ .committed ∧
          engine'.holder = engine.holder := by
    intro hstep
    rcases h.supplied.proposedBlock .prevote with ⟨vote, hvote, hproposed⟩
    let locked : Engine := { engine with
      state := { engine.state with lockedRound := engine.state.round, lockedBlock := some block } }
    have hlocked : Tallied c (config.genesisHash c) locked.state :=
      htallied.congr rfl rfl fun _ _ => rfl
    have hcan : CanVote c config locked := h.canVote.congr rfl rfl rfl rfl
    rcases sendPrecommitMessage_ok locked hlocked hcan (some vote.blockHash) with ⟨engine', hok⟩
    have hsteady : Steady locked (Fallible.final (sendPrecommitMessage c config
        (some vote.blockHash) locked)) := steady_sendPrecommitMessage _ locked
    rw [hok] at hsteady
    refine ⟨some .sendPrecommitMessage, engine', ?_, rfl, ?_, hsteady.holder⟩
    · rw [doPrevoteOrWait, Fallible.get_bind]
      change engine.state.currentRoundState.prevote.twoThirdsMajority = some vote at hvote
      simp only [hvote, hproposed]
      rw [modifyState, Fallible.modify_bind]
      exact Fallible.bind_ok hok
    · have hsame : engine'.state.step = engine.state.step := hsteady.step
      rw [hsame]
      exact h.undecided
  have hprecommit : ∃ await engine', doPrecommitOrWait c engine = .ok await engine' ∧
      Commits engine.state.height block engine' := by
    rcases h.supplied.proposedBlock .precommit with ⟨vote, hvote, hproposed⟩
    exact ⟨_, _, doPrecommitOrWait_commits hvote hproposed, _,
      List.mem_append_right _ (List.mem_singleton_self _)⟩
  rw [ChainCore.proceedConsensus.eq_def, Fallible.get_bind]
  cases hstep : engine.state.step with
  | newRound =>
      rcases h.supplied.proposal with ⟨msg, hmsg, -⟩
      refine ⟨none, { engine with state := { engine.state with step := .propose } }, ?_,
        .inr ⟨le_rfl, Step.noConfusion, rfl⟩⟩
      simp only [doNewRound]
      rw [Fallible.get_bind, Option.mem_def.mp hmsg]
      rfl
  | propose =>
      rcases h.answered.leaves htallied h.canVote world with ⟨engine', hok⟩
      have hsteady : Steady engine (Fallible.final (doPropose c config world engine)) :=
        Parts.doPropose steady_sendPrevoteMessage world engine
      rw [hok] at hsteady
      refine ⟨_, engine', hok, .inr ⟨le_rfl, ?_, hsteady.holder⟩⟩
      have hsame : engine'.state.step = engine.state.step := hsteady.step
      rw [hsame, hstep]
      exact Step.noConfusion
  | prevote =>
      rcases hprevote (.inl hstep) with ⟨await, engine', hok, hone, hrest⟩
      exact ⟨await, engine', hok, .inr ⟨by rw [hone]; rfl, hrest⟩⟩
  | prevoteWait =>
      rcases hprevote (.inr hstep) with ⟨await, engine', hok, hone, hrest⟩
      exact ⟨await, engine', hok, .inr ⟨by rw [hone]; rfl, hrest⟩⟩
  | precommit =>
      rcases hprecommit with ⟨await, engine', hok, hcommits⟩
      exact ⟨await, engine', hok, .inl hcommits⟩
  | precommitWait =>
      rcases hprecommit with ⟨await, engine', hok, hcommits⟩
      exact ⟨await, engine', hok, .inl hcommits⟩
  | committed => exact absurd hstep h.undecided

/-- What a task other than `proceedConsensus` does, as long as the node stays in its round. -/
theorem Ready.otherTask (h : Ready c config block engine)
    (htallied : Tallied c (config.genesisHash c) engine.state) {task : Task} {world : World}
    (htask : task ≠ .proceedConsensus) (hheight : task.isNewHeight = false)
    (hround : (Fallible.final (task.run c config world engine)).state.round = engine.state.round) :
    (Fallible.final (task.run c config world engine)).state.step.remainingAt
        ((Fallible.value (task.run c config world engine)).join) ≤ engine.state.step.remaining ∧
      (Fallible.final (task.run c config world engine)).state.step ≠ .committed ∧
      (Fallible.final (task.run c config world engine)).holder = engine.holder := by
  cases task with
  | proceedConsensus => exact absurd rfl htask
  | proposeTimeout height round =>
      rw [Task.run, runProposeTimeout, Fallible.get_bind]
      split
      · rename_i htimeout
        rcases sendPrevoteMessage_ok engine htallied h.canVote none with ⟨engine', hok⟩
        have hsteady : Steady engine (Fallible.final (sendPrevoteMessage c config none engine)) :=
          steady_sendPrevoteMessage none engine
        rw [hok] at hsteady
        rw [Fallible.bind_ok hok]
        have hsame : engine'.state.step = engine.state.step := hsteady.step
        refine ⟨?_, ?_, hsteady.holder⟩
        · rw [htimeout.2.2]
          exact Nat.le_succ 2
        · change engine'.state.step ≠ .committed
          rw [hsame]
          exact h.undecided
      · exact ⟨le_rfl, h.undecided, rfl⟩
  | checkValidBlock height round =>
      have hsteady := steady_checkValidBlock (c := c) height round engine
      have hsame : (Fallible.final (runCheckValidBlock c height round engine)).state.step =
          engine.state.step := hsteady.step
      refine ⟨hsame ▸ le_rfl, ?_, hsteady.holder⟩
      change (Fallible.final (runCheckValidBlock c height round engine)).state.step ≠ .committed
      rw [hsame]
      exact h.undecided
  | checkRoundSkip height round type =>
      -- a later round would be another one
      have hstate : (Fallible.final (runCheckRoundSkip height round type engine)).state =
          engine.state := by
        change (Fallible.final (runCheckRoundSkip height round type engine)).state.round = _ at hround
        rw [runCheckRoundSkip, modifyState] at hround ⊢
        change (if _ then _ else _ : State).round = _ at hround
        change (if _ then _ else _ : State) = _
        split at hround
        · rw [if_pos ‹_›]
        · rename_i hlater
          rw [if_neg hlater]
          split at hround
          · exact absurd (Or.inr hround.le) hlater
          · rw [if_neg ‹_›]
      refine ⟨?_, ?_, rfl⟩
      · change (Fallible.final (runCheckRoundSkip height round type engine)).state.step.remaining ≤ _
        rw [hstate]
      · change (Fallible.final (runCheckRoundSkip height round type engine)).state.step ≠ _
        rw [hstate]
        exact h.undecided
  | newHeight height appStateHash nextValidatorSetRoot eventTransactionRoot => cases hheight

/-- A task goes on, and is not further from the commit than before. -/
theorem remaining_resume {await : Await} {answer : Answer} {action : Action Engine (Option Await)}
    (hresume : await.resume c config answer = some action) (hundecided : engine.state.step ≠ .committed) :
    (Fallible.final (action engine)).state.step.remainingAt ((Fallible.value (action engine)).join) ≤
        await.remaining engine.state.step ∧
      (Fallible.final (action engine)).state.step ≠ .committed ∧
      (Fallible.final (action engine)).holder = engine.holder := by
  -- before the proposal is made, everything is left to do
  have hearly : Fallible.Respects proposing action → await.remaining engine.state.step = 4 →
      (Fallible.final (action engine)).state.step.remainingAt
          ((Fallible.value (action engine)).join) ≤ await.remaining engine.state.step ∧
        (Fallible.final (action engine)).state.step ≠ .committed ∧
        (Fallible.final (action engine)).holder = engine.holder := by
    intro hrespects hfour
    rcases hrespects engine with ⟨hholder, hstep⟩
    refine ⟨hfour ▸ Step.remainingAt_le _ _, ?_, hholder⟩
    rcases hstep with hsame | hpropose
    · rw [hsame]
      exact hundecided
    · rw [hpropose]
      nofun
  cases Await.resumes hresume with
  | lastBlock block => exact hearly (proposing_checkAppState block) rfl
  | noTransactions => exact hearly (.pure _) rfl
  | newRoundTransactions transactions => exact hearly (proposing_enterPropose _) rfl
  | proposeTransactions transactions =>
      exact hearly (respects_sendProposalMessage proposing_handleProposal _) rfl
  | lastConsensus =>
      exact hearly (respects_constructAndPropose proposing_handleProposal _ _ _ _) rfl
  | sendProposalMessage => exact ⟨le_rfl, Step.noConfusion, rfl⟩
  | sendPrevoteMessage => exact ⟨le_rfl, Step.noConfusion, rfl⟩
  | sendPrecommitMessage => exact ⟨le_rfl, Step.noConfusion, rfl⟩
  | commitBlock => exact ⟨le_rfl, hundecided, rfl⟩
  | @failed await hfail e =>
      refine hearly (.throw e) ?_
      cases await with
      | sendProposalMessage => cases hfail
      | sendPrevoteMessage => cases hfail
      | sendPrecommitMessage => cases hfail
      | commitBlock => cases hfail
      | _ => rfl

end Tasks

/-! ## Runs -/

section Runs

variable {c : Crypto} {config : Config} {engine engine' : Engine} {block : Block} {event : Event}

variable (engine engine') in
/-- The node is not further from the commit than before, less the runs that count. -/
def Advances (runs : Nat) : Prop :=
  engine'.remaining + runs ≤ engine.remaining ∧ engine'.state.step ≠ .committed

/-- Whatever leaves the step and the lock as they are takes nothing back. -/
theorem advances_of_same (hundecided : engine.state.step ≠ .committed)
    (hstep : engine'.state.step = engine.state.step) (hholder : engine'.holder = engine.holder) :
    Advances engine engine' 0 := by
  unfold Advances
  rw [Engine.remaining, Engine.remaining, hstep, hholder]
  exact ⟨le_rfl, hundecided⟩

/-- The first task in the queue gets the lock. -/
theorem Ready.advances_task {task : Task} {queue : List Task} {world : World}
    (h : Ready c config block engine) (htallied : Tallied c (config.genesisHash c) engine.state)
    (hfree : engine.holder = none) (hqueue : engine.queue = task :: queue)
    (hround : (settle task (task.run c config world { engine with queue })).state.round =
      engine.state.round) :
    Commits engine.state.height block (settle task (task.run c config world { engine with queue })) ∨
      Advances engine (settle task (task.run c config world { engine with queue }))
        (if task = .proceedConsensus then 1 else 0) := by
  have hnone := h.pending
  rw [pendingHeights, hqueue, List.filter_cons] at hnone
  have hheight : task.isNewHeight = false := by
    by_contra hheight
    rw [if_pos (by simpa using hheight)] at hnone
    cases hnone
  rw [if_neg (by simp [hheight])] at hnone
  have hpopped : Ready c config block { engine with queue } :=
    ⟨h.supplied, h.answered, h.canVote.congr rfl rfl rfl rfl, hnone, h.undecided⟩
  have hleft : engine.remaining = engine.state.step.remaining := by
    rw [Engine.remaining, hfree]
    rfl
  unfold Advances
  rw [hleft]
  by_cases htask : task = .proceedConsensus
  · subst htask
    rcases hpopped.proceedConsensus htallied world with ⟨await, engine', hok, hnext⟩
    have hrun : Task.run c config world .proceedConsensus { engine with queue } =
        .ok await engine' := hok
    rw [hrun, if_pos rfl]
    rcases hnext with ⟨consensus, hcommit⟩ | ⟨hle, hundecided, hsame⟩
    · refine .inl ⟨consensus, ?_⟩
      rw [trace_settle]
      exact hcommit
    · right
      rw [remaining_settle .proceedConsensus
        (show (Fallible.final (.ok await engine')).holder = none from hsame.trans hfree), state_settle]
      exact ⟨hle, hundecided⟩
  · rw [state_settle] at hround
    rcases hpopped.otherTask htallied htask hheight hround with ⟨hle, hundecided, hsame⟩
    right
    rw [remaining_settle _ (hsame.trans hfree), state_settle, if_neg htask]
    exact ⟨hle, hundecided⟩

/-- The task that holds the lock goes on. -/
theorem Ready.advances_resume {task : Task} {await : Await} {answer : Answer}
    {action : Action Engine (Option Await)} (h : Ready c config block engine)
    (hholder : engine.holder = some (task, await))
    (hresume : await.resume c config answer = some action) :
    Advances engine (settle task (action { engine with holder := none })) 0 := by
  rcases @remaining_resume c config { engine with holder := none } await answer action hresume
    h.undecided with ⟨hle, hundecided, hfree⟩
  have hleft : engine.remaining = await.remaining engine.state.step := by
    rw [Engine.remaining, hholder]
    rfl
  unfold Advances
  rw [remaining_settle _ hfree, state_settle, hleft]
  exact ⟨hle, hundecided⟩

/-- A timer runs off, and no other round starts. -/
theorem Ready.advances_timer {timer : Timer} {timers : List Timer} (h : Ready c config block engine)
    (hround : (Fallible.final (timer.run c config { engine with timers })).state.round =
      engine.state.round) :
    Advances engine (Fallible.final (timer.run c config { engine with timers })) 0 := by
  cases timer with
  | propose height round => exact advances_of_same h.undecided rfl rfl
  | prevote height round =>
      have hrun : Fallible.Respects (.constant fun engine => (engine.state.step, engine.holder))
          (Timer.run c config (.prevote height round)) := by
        refine Fallible.Respects.get.bind ?_
        intro engine
        simp only
        split
        · refine Fallible.Respects.bind ?_ fun _ => .modify fun _ => rfl
          intro engine
          have hsteady : Steady engine (Fallible.final (sendPrecommitMessage c config none engine)) :=
            steady_sendPrecommitMessage none engine
          exact Prod.ext hsteady.step hsteady.holder
        · exact .pure _
      have hsame := hrun { engine with timers }
      exact advances_of_same h.undecided (congrArg Prod.fst hsame) (congrArg Prod.snd hsame)
  | precommit height round =>
      rw [Timer.run, Fallible.get_bind] at hround ⊢
      split at hround
      · -- the timeout of the round would start the next one
        exact absurd hround (Nat.succ_ne_self _)
      · rename_i hnot
        rw [if_neg hnot]
        exact advances_of_same h.undecided rfl rfl

/-- A prevote timeout that goes on makes the step the Precommit step, whatever it was. -/
theorem Ready.advances_prevoteTimeout (h : Ready c config block engine) (prevoteTimeouts : Nat) :
    Advances engine { engine with
      prevoteTimeouts, state := { engine.state with step := .precommit } } 0 := by
  refine ⟨?_, nofun⟩
  have hpos := Step.remainingAt_pos h.undecided (engine.holder.map Prod.snd)
  change Step.remainingAt .precommit (engine.holder.map Prod.snd) ≤
    engine.state.step.remainingAt (engine.holder.map Prod.snd)
  generalize engine.holder.map Prod.snd = await at hpos ⊢
  cases await with
  | none => exact hpos
  | some await =>
      cases await with
      | commitBlock => exact hpos
      | _ => exact le_rfl

/-- An event of the round takes nothing back, and a run of `proceedConsensus` brings the node closer to
the commit. -/
theorem Ready.advances (h : Ready c config block engine)
    (htallied : Tallied c (config.genesisHash c) engine.state)
    (hstays : StaysInRound c config engine event) :
    Commits engine.state.height block (engine.step c config event) ∨
      Advances engine (engine.step c config event) (if engine.proceeds event then 1 else 0) := by
  have hround := hstays.round
  have hsame : Advances engine engine 0 := advances_of_same h.undecided rfl rfl
  cases event with
  | start =>
      right
      rw [Engine.step]
      split
      · exact hsame
      · exact hsame
  | stop => exact .inr hsame
  | loop =>
      right
      rw [Engine.step]
      split
      · exact hsame
      · exact hsame
  | newConsensusMessage msg =>
      have hsteady : Steady engine (Fallible.final (newConsensusMessage c config msg engine)) :=
        steady_newConsensusMessage msg engine
      exact .inr (advances_of_same h.undecided hsteady.step hsteady.holder)
  | acquire world =>
      unfold Engine.proceeds
      cases hholder : engine.holder with
      | some held =>
          rw [Engine.step, hholder]
          exact .inr hsame
      | none =>
          cases hqueue : engine.queue with
          | nil =>
              rw [Engine.step, hholder, hqueue]
              exact .inr hsame
          | cons task queue =>
              have hstep : engine.step c config (.acquire world) =
                  settle task (task.run c config world { engine with queue }) := by
                simp only [Engine.step, hholder, hqueue]
              rw [hstep] at hround ⊢
              have hnext := h.advances_task htallied hholder hqueue hround
              cases task with
              | _ => exact hnext
  | resume answer =>
      right
      rw [Engine.step]
      split
      · rename_i task await hholder
        split
        · rename_i action hresume
          exact h.advances_resume hholder hresume
        · exact hsame
      · exact hsame
  | timeout timer =>
      right
      rw [Engine.step] at hround ⊢
      split at hround
      · rename_i hset
        rw [if_pos hset]
        exact h.advances_timer hround
      · rename_i hnot
        rw [if_neg hnot]
        exact hsame
  | prevoteTimeout =>
      right
      rw [Engine.step]
      split
      · exact h.advances_prevoteTimeout _
      · exact hsame
  | setNewHeight height appStateHash validatorSet nextValidatorSetRoot eventTransactionRoot =>
      exact absurd hstays.height Bool.noConfusion

variable (c config block) in
/-- What holds until the block is committed. -/
structure OnTheWay (height : Nat) (engine : Engine) : Prop where
  height : engine.state.height = height
  tallied : Tallied c (config.genesisHash c) engine.state
  ready : Ready c config block engine

theorem OnTheWay.step {height : Nat} (h : OnTheWay c config block height engine)
    (hstays : StaysInRound c config engine event) :
    Commits height block (engine.step c config event) ∨
      OnTheWay c config block height (engine.step c config event) ∧
        Advances engine (engine.step c config event) (if engine.proceeds event then 1 else 0) := by
  rcases h.ready.advances h.tallied hstays with hcommits | hadvances
  · rw [h.height] at hcommits
    exact .inl hcommits
  · -- no height is entered, as none is to be entered
    have hheights : (engine.step c config event).heights = engine.heights := by
      have hevent : ∀ height appStateHash validatorSet nextValidatorSetRoot eventTransactionRoot,
          event ≠ .setNewHeight height appStateHash validatorSet nextValidatorSetRoot
            eventTransactionRoot := by
        rintro _ _ _ _ _ rfl
        exact absurd hstays.height Bool.noConfusion
      rcases heights_step engine event hevent with ⟨_, _, _, _, rest, hpending, -⟩ | hsame
      · rw [h.ready.pending] at hpending
        cases hpending
      · exact hsame
    have hin : InRound c block height engine.state.round engine.state.validatorSet
        (engine.step c config event).state := by
      refine InRound.step ⟨h.height, rfl, rfl, h.ready.supplied, h.ready.answered⟩ hstays.round ?_
      exact congrArg (fun heights => heights.2.2) hheights
    have hpending : (engine.step c config event).pendingHeights = engine.pendingHeights :=
      congrArg (fun heights => heights.2.1) hheights
    refine .inr ⟨⟨hin.height, h.tallied.step event, hin.supplied, hin.answered, ?_, ?_,
      hadvances.2⟩, hadvances⟩
    · exact h.ready.canVote.congr (hin.height.trans h.height.symm) hin.round hin.validatorSet
        (congrArg (fun heights => heights.1) hheights)
    · exact hpending.trans h.ready.pending

theorem Commits.step {height : Nat} (h : Commits height block engine) :
    Commits height block (engine.step c config event) := by
  rcases h with ⟨consensus, hcommit⟩
  exact ⟨consensus, (@trace_step c config engine event).1.subset hcommit⟩

end Runs

/-- A node that has what it needs of its round commits the block of the proposal, in every run in which
it stays in the round, and `proceedConsensus` is started as often as there are steps left: four times
at most. -/
theorem decides (c : Crypto) (config : Config) (initialValidatorSet : ValidatorSet)
    (earlier events : List Event) (block : Block)
    (hready : Ready c config block ((Engine.new c initialValidatorSet).run c config earlier))
    (hstays : Along (Engine.step c config) ((Engine.new c initialValidatorSet).run c config earlier)
      events (StaysInRound c config))
    (hruns : ((Engine.new c initialValidatorSet).run c config earlier).remaining ≤
      countAlong (Engine.step c config) Engine.proceeds
        ((Engine.new c initialValidatorSet).run c config earlier) events) :
    ∃ consensus, .commitBlock ((Engine.new c initialValidatorSet).run c config earlier).state.height
      block consensus ∈ ((Engine.new c initialValidatorSet).run c config (earlier ++ events)).trace := by
  have htallied : Throughout (Engine.step c config) (Engine.new c initialValidatorSet) earlier
      fun engine => Tallied c (config.genesisHash c) engine.state := by
    refine throughout ?_ ?_ earlier
    · exact tallied_of_none rfl
    · intro engine event h
      exact h.step event
  have hstart : Tallied c (config.genesisHash c)
      ((Engine.new c initialValidatorSet).run c config earlier).state :=
    htallied earlier [] (List.append_nil _).symm
  have hrun : (Engine.new c initialValidatorSet).run c config (earlier ++ events) =
      events.foldl (Engine.step c config) ((Engine.new c initialValidatorSet).run c config earlier) :=
    List.foldl_append
  rw [hrun]
  generalize (Engine.new c initialValidatorSet).run c config earlier = engine at *
  have hend : Commits engine.state.height block (events.foldl (Engine.step c config) engine) ∨
      OnTheWay c config block engine.state.height (events.foldl (Engine.step c config) engine) ∧
        (events.foldl (Engine.step c config) engine).remaining +
          countAlong (Engine.step c config) Engine.proceeds engine events ≤ engine.remaining := by
    refine hstays.reaches ⟨rfl, hstart, hready⟩ (fun _ _ h => h.step) ?_
    intro engine' event h hstays'
    rcases h.step hstays' with hcommits | ⟨hnext, hadvances, -⟩
    · exact .inl hcommits
    · exact .inr ⟨hnext, hadvances⟩
  rcases hend with hcommits | ⟨hlast, hle⟩
  · exact hcommits
  · -- after as many runs nothing would be left, which only a commit brings about
    have hpos : 0 < (events.foldl (Engine.step c config) engine).remaining :=
      Step.remainingAt_pos hlast.ready.undecided _
    omega

section Sample

instance (c : Crypto) (config : Config) (engine : Engine) (event : Event) :
    Decidable (StaysInRound c config engine event) :=
  decidable_of_iff ((engine.step c config event).state.round = engine.state.round ∧
    event.isSetNewHeight = false) ⟨fun h => ⟨h.1, h.2⟩, fun h => ⟨h.round, h.height⟩⟩

/-- The observer has got the messages of the validator, and has not looked at them. -/
def suppliedEvents : List Event :=
  Nodes.enterFirstHeight ++ Nodes.validatorMessages.map .newConsensusMessage

def suppliedObserver : Engine :=
  (Engine.new .transparent soleValidatorSet).run .transparent
    (Nodes.validatorAndObserver.config false) suppliedEvents

/-- The tasks that wait for the lock come first, then `proceedConsensus` runs four times. -/
def decidingEvents : List Event :=
  Nodes.proceed 3 ++ Nodes.proceed 0 ++ [.resume .done] ++ Nodes.proceed 0 ++ [.resume .done] ++
    Nodes.proceed 0

theorem ready_suppliedObserver : Ready .transparent (Nodes.validatorAndObserver.config false)
    sampleGenesis suppliedObserver := by
  have hproposal : ∃ msg ∈ suppliedObserver.state.currentRoundState.proposal,
      msg.proposal.block = sampleGenesis := by decide +kernel
  have hmajority : ∀ type ∈ [VoteType.prevote, .precommit],
      ∃ vote ∈ (suppliedObserver.state.currentRoundState.votes type).twoThirdsMajority,
        vote.blockHash = sampleGenesis.hash .transparent := by decide +kernel
  refine ⟨⟨hproposal, ?_⟩, by decide +kernel, by decide +kernel, by decide +kernel,
    by decide +kernel⟩
  intro type
  refine hmajority type ?_
  cases type with
  | prevote => exact List.mem_cons_self
  | precommit => exact List.mem_cons_of_mem _ List.mem_cons_self

theorem decides_observer : ∃ consensus, .commitBlock 1 sampleGenesis consensus ∈
    ((Engine.new .transparent soleValidatorSet).run .transparent
      (Nodes.validatorAndObserver.config false) (suppliedEvents ++ decidingEvents)).trace := by
  have hheight : suppliedObserver.state.height = 1 := by decide +kernel
  unfold suppliedObserver at hheight
  have hstays : Along (Engine.step .transparent (Nodes.validatorAndObserver.config false))
      suppliedObserver decidingEvents
      (StaysInRound .transparent (Nodes.validatorAndObserver.config false)) := by decide +kernel
  have hruns : suppliedObserver.remaining ≤ countAlong
      (Engine.step .transparent (Nodes.validatorAndObserver.config false)) Engine.proceeds
      suppliedObserver decidingEvents := by decide +kernel
  have hcommits := decides .transparent (Nodes.validatorAndObserver.config false) soleValidatorSet
    suppliedEvents decidingEvents sampleGenesis ready_suppliedObserver hstays hruns
  rwa [hheight] at hcommits

end Sample

end ChainCore
end UniqysKit
