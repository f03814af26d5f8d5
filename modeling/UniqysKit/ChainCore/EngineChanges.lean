import Mathlib.Logic.Relation
import UniqysKit.ChainCore.EngineParts

/-!
# What an event can do to the engine

`Change` lists the ways in which the code changes the state of a height or the trace, with what the
code has tested before.  An event is a walk of changes, or it commits a block (`step_walks`), which
happens in one place only.  Invariants of all runs are shown by going through the list.
-/

namespace UniqysKit
namespace ChainCore

open Library Engine

section Changes

variable (c : Crypto) (config : Config)

/-- One change; everything of the engine besides the state of the height and the trace may change
too. -/
inductive Change (engine : Engine) : Engine → Prop
  | idle {engine' : Engine} (hstate : engine'.state = engine.state)
      (htrace : engine'.trace = engine.trace) : Change engine engine'
  | proposal {engine' : Engine} {msg : ProposalMessage}
      (hheight : msg.proposal.height = engine.state.height)
      (hround : engine.state.round ≤ msg.proposal.round)
      (hnone : (engine.state.roundStateOf msg.proposal.round).proposal = none)
      (hlocked : msg.proposal.lockedRound = 0 ∨ msg.proposal.lockedRound < msg.proposal.round)
      (hstate : engine'.state = engine.state.setRoundState msg.proposal.round
        { engine.state.roundStateOf msg.proposal.round with proposal := some msg })
      (htrace : engine'.trace = engine.trace ++ [.gossip (.proposal msg)]) : Change engine engine'
  /-- a vote of an address without power -/
  | stranger {engine' : Engine} {type : VoteType} {msg : VoteMessage type} {address : Address}
      {e : Error} (hheight : msg.vote.height = engine.state.height)
      (hsigner : msg.signerAddress c (config.genesisHash c) = .ok address)
      (hhas : ¬ ((engine.state.roundStateOf msg.vote.round).votes type).has address = true)
      (hpower : ((engine.state.roundStateOf msg.vote.round).votes type).validatorSet.powerOf address =
        .error e)
      (hstate : engine'.state = (recordVote engine msg
        (((engine.state.roundStateOf msg.vote.round).votes type).record address msg)).state)
      (htrace : engine'.trace = engine.trace) : Change engine engine'
  | vote {engine' : Engine} {type : VoteType} {msg : VoteMessage type} {address : Address}
      {power : Nat} (hheight : msg.vote.height = engine.state.height)
      (hsigner : msg.signerAddress c (config.genesisHash c) = .ok address)
      (hhas : ¬ ((engine.state.roundStateOf msg.vote.round).votes type).has address = true)
      (hpower : ((engine.state.roundStateOf msg.vote.round).votes type).validatorSet.powerOf address =
        .ok power)
      (hstate : engine'.state = (recordVote engine msg
        ((((engine.state.roundStateOf msg.vote.round).votes type).record address msg).count
          power msg.vote)).state)
      (htrace : engine'.trace = engine.trace ++ [.gossip (voteMessage msg)]) : Change engine engine'
  | setStep {engine' : Engine} {step : Step} (hstate : engine'.state = { engine.state with step })
      (htrace : engine'.trace = engine.trace) : Change engine engine'
  | lock {engine' : Engine} {vote : Vote} {block : Block}
      (hmajority : engine.state.currentRoundState.prevote.twoThirdsMajority = some vote)
      (hblock : engine.state.currentRoundState.proposedBlock c vote.blockHash = some block)
      (hstate : engine'.state =
        { engine.state with lockedRound := engine.state.round, lockedBlock := some block })
      (htrace : engine'.trace = engine.trace) : Change engine engine'
  | validBlock {engine' : Engine} {round : Nat} {vote : Vote} {block : Block}
      (hround : engine.state.validRound < round)
      (hmajority : (engine.state.roundStateOf round).prevote.twoThirdsMajority = some vote)
      (hblock : (engine.state.roundStateOf round).proposedBlock c vote.blockHash = some block)
      (hstate : engine'.state =
        { engine.state with validRound := round, validBlock := some block })
      (htrace : engine'.trace = engine.trace) : Change engine engine'
  | newRound {engine' : Engine} {round : Nat} (hround : engine.state.round < round)
      (hstate : engine'.state = engine.state.newRound round)
      (htrace : engine'.trace = engine.trace) : Change engine engine'
  | newHeight {engine' : Engine} {height : Nat}
      {appStateHash nextValidatorSetRoot eventTransactionRoot : Hash}
      (hstate : engine'.state = engine.state.newHeight height appStateHash engine.validatorSet
        nextValidatorSetRoot eventTransactionRoot)
      (htrace : engine'.trace = engine.trace ++ [.newHeight height engine.validatorSet]) :
      Change engine engine'

/-- Some changes, one after another. -/
def walks : Fallible.Progress Engine where
  rel := Relation.ReflTransGen (Change c config)
  refl _ := .refl
  trans := .trans

/-- The action is a walk of changes. -/
abbrev Walks {α : Type} (x : Action Engine α) : Prop := Fallible.Respects (walks c config) x

variable {c config}

/-! ## The parts of the code -/

theorem walks_handleProposal (msg : ProposalMessage) : Walks c config (handleProposal c config msg) := by
  intro engine
  refine (ends_handleProposal ((walks c config).refl engine) ?_).final
  intro hheight hround hnone hlocked
  exact .single (.proposal hheight hround hnone hlocked rfl rfl)

theorem walks_handleVote {type : VoteType} (msg : VoteMessage type) {check : Action Engine Unit}
    (hcheck : Silent check) : Walks c config (handleVote c config msg check) := by
  intro engine
  refine (ends_handleVote (fun _ => (walks c config).refl engine) ?_ ?_).final
  · intro address e hheight hsigner hhas hpower
    exact .single (.stranger hheight hsigner hhas hpower rfl rfl)
  · intro address power hheight hsigner hhas hpower
    refine (hcheck _).mono ?_ fun _ => False.elim
    rintro _ engine' ⟨hstate, htrace, -⟩
    exact .single (.vote hheight hsigner hhas hpower hstate htrace)

theorem walks_newConsensusMessage (msg : ConsensusMessage) :
    Walks c config (newConsensusMessage c config msg) := by
  cases msg with
  | proposal msg => exact walks_handleProposal msg
  | prevote msg => exact walks_handleVote msg (silent_checkValidBlock _ _)
  | precommit msg => exact walks_handleVote msg silent_pure

theorem walks_sendVote {type : VoteType} {check : VoteMessage type → Action Engine Unit}
    (hcheck : ∀ msg, Silent (check msg)) (blockHash : Option Hash) :
    Walks c config (sendVote c config type
      (fun msg => handleVote c config msg (check msg)) blockHash) :=
  respects_sendVote (fun msg => walks_handleVote msg (hcheck msg)) blockHash

theorem walks_sendPrevoteMessage (blockHash : Option Hash) :
    Walks c config (sendPrevoteMessage c config blockHash) :=
  walks_sendVote (fun msg => silent_checkValidBlock msg.vote.height msg.vote.round) blockHash

theorem walks_sendPrecommitMessage (blockHash : Option Hash) :
    Walks c config (sendPrecommitMessage c config blockHash) :=
  walks_sendVote (fun _ => silent_pure) blockHash

theorem parts_walks : Parts c config (walks c config) where
  idle hstate htrace _ := .single (.idle hstate htrace)
  setStep _ _ := .single (.setStep rfl rfl)
  proposal := walks_handleProposal
  prevote := walks_sendPrevoteMessage none
  precommit := walks_sendPrecommitMessage
  lock hmajority hblock := .single (.lock hmajority hblock rfl rfl)
  validBlock hround hmajority hblock := .single (.validBlock hround hmajority hblock rfl rfl)
  newRound hround := .single (.newRound hround rfl rfl)

/-- An event commits a block, or it is a walk of changes. -/
theorem step_walks (engine : Engine) (event : Event) :
    (∃ vote block, CommitsAt c engine event vote block ∧
      (engine.step c config event).state = (committed engine vote block).state ∧
      (engine.step c config event).trace = (committed engine vote block).trace) ∨
    (∀ vote block, ¬ CommitsAt c engine event vote block) ∧
      (walks c config).rel engine (engine.step c config event) := by
  by_cases hcommits : ∃ vote block, CommitsAt c engine event vote block
  · rcases hcommits with ⟨vote, block, hcommits⟩
    exact .inl ⟨vote, block, hcommits, hcommits.step_eq⟩
  · push Not at hcommits
    refine .inr ⟨hcommits, ?_⟩
    refine parts_walks.step engine event ?_ ?_ ?_ ?_ ?_
    · intro task queue _
      exact .single (.idle rfl rfl)
    · rintro msg rfl
      exact walks_newConsensusMessage msg engine
    · intro world queue _ _ _ _
      exact Parts.doPropose walks_sendPrevoteMessage world _
    · intro queue vote block _ hat
      exact absurd hat (hcommits vote block)
    · intro queue height appStateHash nextValidatorSetRoot eventTransactionRoot
      exact .single (.newHeight rfl rfl)

/-- The rule for relations that hold at each change. -/
theorem step_respects {R : Fallible.Progress Engine} (engine : Engine) (event : Event)
    (hchange : ∀ engine engine', Change c config engine engine' → R.rel engine engine')
    (hcommit : ∀ vote block engine', engine'.state = (committed engine vote block).state →
      engine'.trace = (committed engine vote block).trace → R.rel engine engine') :
    R.rel engine (engine.step c config event) := by
  rcases @step_walks c config engine event with ⟨vote, block, -, hstate, htrace⟩ | ⟨-, hwalks⟩
  · exact hcommit vote block _ hstate htrace
  · generalize engine.step c config event = engine' at hwalks ⊢
    change Relation.ReflTransGen (Change c config) engine engine' at hwalks
    induction hwalks with
    | refl => exact R.refl engine
    | tail _ hlast ih => exact R.trans ih (hchange _ _ hlast)

/-- The rule for what depends on the state of the height and the trace only. -/
theorem step_keeps {P : State → List Effect → Prop} {engine : Engine} (event : Event)
    (h : P engine.state engine.trace)
    (hchange : ∀ engine engine', Change c config engine engine' → P engine.state engine.trace →
      P engine'.state engine'.trace)
    (hcommit : ∀ vote block, P (committed engine vote block).state
      (committed engine vote block).trace) :
    P (engine.step c config event).state (engine.step c config event).trace := by
  rcases @step_walks c config engine event with ⟨vote, block, -, hstate, htrace⟩ | ⟨-, hwalks⟩
  · rw [hstate, htrace]
    exact hcommit vote block
  · generalize engine.step c config event = engine' at hwalks ⊢
    change Relation.ReflTransGen (Change c config) engine engine' at hwalks
    induction hwalks with
    | refl => exact h
    | tail _ hlast ih => exact hchange _ _ hlast ih

end Changes

end ChainCore
end UniqysKit
