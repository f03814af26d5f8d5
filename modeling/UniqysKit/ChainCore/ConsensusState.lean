import UniqysKit.Blockchain.Block
import UniqysKit.Library.Fallible

/-!
# The state of the consensus engine

`consensus-engine/state.ts`: the votes of a round, counted as they come in, and the state of the
height the engine works on.
-/

namespace UniqysKit

namespace ChainCore

open Library

inductive Step
  | newRound
  | propose
  | prevote
  | prevoteWait
  | precommit
  | precommitWait
  | committed
  deriving DecidableEq, Repr

/-! ## Votes of a round -/

/-- `VoteSet`. The messages are listed in the order in which they were added. -/
structure VoteSet (type : VoteType) where
  validatorSet : ValidatorSet
  power : Nat
  powerOfBlock : Hash → Nat
  messageOfValidator : List (Address × VoteMessage type)
  twoThirdsMajority : Option Vote
  twoThirdsAny : Bool
  oneThirdAny : Bool

namespace VoteSet

variable {type : VoteType}

def new (validatorSet : ValidatorSet) : VoteSet type where
  validatorSet
  power := 0
  powerOfBlock := fun _ => 0
  messageOfValidator := []
  twoThirdsMajority := none
  twoThirdsAny := false
  oneThirdAny := false

def has (set : VoteSet type) (address : Address) : Bool :=
  set.messageOfValidator.any fun entry => entry.1 = address

/-- The part of `add` that counts the vote. -/
def count (votePower : Nat) (vote : Vote) (set : VoteSet type) : VoteSet type :=
  let blockPower := Doubles.add (set.powerOfBlock vote.blockHash) votePower
  let totalPower := Doubles.add set.power votePower
  { set with
    powerOfBlock := Function.update set.powerOfBlock vote.blockHash blockPower
    power := totalPower
    twoThirdsMajority :=
      if set.twoThirdsMajority = none ∧
          Doubles.mul blockPower 3 > Doubles.mul set.validatorSet.totalPower 2 then
        some vote
      else set.twoThirdsMajority
    twoThirdsAny := set.twoThirdsAny ||
      Doubles.mul totalPower 3 > Doubles.mul set.validatorSet.totalPower 2
    oneThirdAny := set.oneThirdAny || Doubles.mul totalPower 3 > set.validatorSet.totalPower }

/-- The message is recorded before the power is looked up, which throws for strangers. -/
def add (address : Address) (message : VoteMessage type) : Action (VoteSet type) Unit := do
  if (← get).has address then throw ⟨"duplicated vote message"⟩
  modify fun set =>
    { set with messageOfValidator := set.messageOfValidator ++ [(address, message)] }
  match (← get).validatorSet.powerOf address with
  | .ok votePower => modify (count votePower message.vote)
  | .error e => throw e

def signatures (set : VoteSet type) (blockHash : Hash) : List Signature :=
  (set.messageOfValidator.filter fun entry => entry.2.vote.blockHash = blockHash).map
    fun entry => entry.2.sign

end VoteSet

structure RoundState where
  proposal : Option ProposalMessage
  prevote : VoteSet .prevote
  precommit : VoteSet .precommit

namespace RoundState

def new (validatorSet : ValidatorSet) : RoundState :=
  ⟨none, VoteSet.new validatorSet, VoteSet.new validatorSet⟩

/-- The votes of one kind. -/
def votes (roundState : RoundState) : (type : VoteType) → VoteSet type
  | .prevote => roundState.prevote
  | .precommit => roundState.precommit

def setVotes (roundState : RoundState) : (type : VoteType) → VoteSet type → RoundState
  | .prevote, set => { roundState with prevote := set }
  | .precommit, set => { roundState with precommit := set }

@[simp] theorem votes_setVotes (roundState : RoundState) (type : VoteType) (set : VoteSet type) :
    (roundState.setVotes type set).votes type = set := by
  cases type with
  | prevote => rfl
  | precommit => rfl

theorem votes_setVotes_of_ne (roundState : RoundState) {type type' : VoteType} (h : type' ≠ type)
    (set : VoteSet type) : (roundState.setVotes type set).votes type' = roundState.votes type' := by
  cases type with
  | prevote =>
      cases type' with
      | prevote => exact absurd rfl h
      | precommit => rfl
  | precommit =>
      cases type' with
      | prevote => rfl
      | precommit => exact absurd rfl h

@[simp] theorem proposal_setVotes (roundState : RoundState) (type : VoteType) (set : VoteSet type) :
    (roundState.setVotes type set).proposal = roundState.proposal := by
  cases type with
  | prevote => rfl
  | precommit => rfl

/-- The block of the proposal, if that has the given hash. -/
def proposedBlock (c : Crypto) (roundState : RoundState) (blockHash : Hash) : Option Block :=
  match roundState.proposal with
  | some msg => if blockHash = msg.proposal.block.hash c then some msg.proposal.block else none
  | none => none

end RoundState

/-! ## The state of a height -/

structure State where
  height : Nat
  appStateHash : Hash
  validatorSet : ValidatorSet
  nextValidatorSetRoot : Hash
  eventTransactionRoot : Hash
  lockedRound : Nat
  lockedBlock : Option Block
  validRound : Nat
  validBlock : Option Block
  round : Nat
  step : Step
  roundState : Nat → Option RoundState

namespace State

/-- The state that the engine is created with. -/
def new (c : Crypto) : State where
  height := 0
  appStateHash := Hash.zero
  validatorSet := ⟨[]⟩
  nextValidatorSetRoot := Hash.zero
  eventTransactionRoot := MerkleTree.root c []
  lockedRound := 0
  lockedBlock := none
  validRound := 0
  validBlock := none
  round := 1
  step := .newRound
  roundState := fun _ => none

def newRound (round : Nat) (state : State) : State := { state with round, step := .newRound }

def newHeight (height : Nat) (appStateHash : Hash) (validatorSet : ValidatorSet)
    (nextValidatorSetRoot eventTransactionRoot : Hash) (state : State) : State :=
  newRound 1
    { state with
      height, appStateHash, validatorSet, nextValidatorSetRoot, eventTransactionRoot
      lockedRound := 0
      lockedBlock := none
      validRound := 0
      validBlock := none
      roundState := fun _ => none }

/-- `roundStateOf`. The source also stores the round state it makes, which nothing can tell from
making it again. -/
def roundStateOf (state : State) (round : Nat) : RoundState :=
  (state.roundState round).getD (RoundState.new state.validatorSet)

def currentRoundState (state : State) : RoundState := state.roundStateOf state.round

def setRoundState (round : Nat) (roundState : RoundState) (state : State) : State :=
  { state with roundState := Function.update state.roundState round (some roundState) }

@[simp] theorem roundStateOf_setRoundState (state : State) (round : Nat) (roundState : RoundState) :
    (state.setRoundState round roundState).roundStateOf round = roundState := by
  simp [setRoundState, roundStateOf]

theorem roundStateOf_setRoundState_of_ne (state : State) {round round' : Nat} (h : round' ≠ round)
    (roundState : RoundState) :
    (state.setRoundState round roundState).roundStateOf round' = state.roundStateOf round' := by
  simp [setRoundState, roundStateOf, h]

/-- Where the votes have changed after new ones were set, and where not. -/
theorem votes_setVotes (state : State) (round : Nat) (type : VoteType) (set : VoteSet type)
    (type' : VoteType) (round' : Nat) :
    (type' = type ∧ round' = round) ∨
      ((state.setRoundState round ((state.roundStateOf round).setVotes type set)).roundStateOf
        round').votes type' = (state.roundStateOf round').votes type' := by
  by_cases hround : round' = round
  · subst hround
    by_cases htype : type' = type
    · exact .inl ⟨htype, rfl⟩
    · rw [roundStateOf_setRoundState, RoundState.votes_setVotes_of_ne _ htype]
      exact .inr rfl
  · rw [roundStateOf_setRoundState_of_ne _ hround]
    exact .inr rfl

/-- A recorded proposal leaves the votes of every round as they were. -/
theorem votes_setProposal (state : State) (round : Nat) (proposal : Option ProposalMessage)
    (type : VoteType) (round' : Nat) :
    ((state.setRoundState round { state.roundStateOf round with proposal }).roundStateOf
      round').votes type = (state.roundStateOf round').votes type := by
  by_cases hround : round' = round
  · subst hround
    rw [roundStateOf_setRoundState]
    cases type with
    | prevote => rfl
    | precommit => rfl
  · rw [roundStateOf_setRoundState_of_ne _ hround]

end State

end ChainCore
end UniqysKit
