import UniqysKit.ChainCore.Agreement
import UniqysKit.ChainCore.EngineChanges
import UniqysKit.ChainCore.EngineFrame
import UniqysKit.Library.Runs

/-!
# Locks and valid blocks

A block is locked, or seen to be valid, where a round has a majority of prevotes for the block that
is proposed in it.  Majorities and proposals stay once they are there, so what was a reason for a lock
at some time still is (`locks_justified`).

A majority is looked at when a prevote comes in, and not when the proposal does.  So a block can be
locked that was never seen to be valid; `lock_not_newer` is for the runs in which every proposal comes
before the majority for its block.
-/

namespace UniqysKit
namespace ChainCore

open Library Engine

/-! ## What a lock rests on -/

section Definitions

variable (c : Crypto)

/-- The prevotes of the round have a majority for the block, and it is the one that is proposed. -/
def Backed (state : State) (round : Nat) (block : Block) : Prop :=
  ∃ vote msg, (state.roundStateOf round).prevote.twoThirdsMajority = some vote ∧
    vote.blockHash = block.hash c ∧ (state.roundStateOf round).proposal = some msg ∧
    msg.proposal.block = block

/-- A lock or a valid block, with its round, which is 0 where there is none. -/
structure Held (state : State) (round : Nat) (block : Option Block) : Prop where
  zero_iff : round = 0 ↔ block = none
  backed : ∀ held ∈ block, Backed c state round held

structure LocksJustified (state : State) : Prop where
  round_pos : 0 < state.round
  locked_le : state.lockedRound ≤ state.round
  locked : Held c state state.lockedRound state.lockedBlock
  valid : Held c state state.validRound state.validBlock

/-- Unless the event enters a height, the locked and the valid round do not go back at it. -/
def LocksForward (config : Config) (engine : Engine) (event : Event) : Prop :=
  (∀ effect ∈ added c config engine event, effect.newHeight? = none) →
    engine.state.lockedRound ≤ (engine.step c config event).state.lockedRound ∧
      engine.state.validRound ≤ (engine.step c config event).state.validRound

end Definitions

/-- Majorities of prevotes and proposals that are there stay. -/
structure Extends (state state' : State) : Prop where
  majority : ∀ round vote, (state.roundStateOf round).prevote.twoThirdsMajority = some vote →
    (state'.roundStateOf round).prevote.twoThirdsMajority = some vote
  proposal : ∀ round msg, (state.roundStateOf round).proposal = some msg →
    (state'.roundStateOf round).proposal = some msg

section Changes

variable {c : Crypto} {config : Config} {engine engine' : Engine} {state state' : State}
  {round : Nat} {block : Block}

theorem Extends.of_roundStateOf (h : state'.roundStateOf = state.roundStateOf) :
    Extends state state' := by
  refine ⟨?_, ?_⟩
  · intro round vote hmajority
    rw [h]
    exact hmajority
  · intro round msg hproposal
    rw [h]
    exact hproposal

theorem backed_of_proposedBlock {vote : Vote}
    (hmajority : (state.roundStateOf round).prevote.twoThirdsMajority = some vote)
    (hblock : (state.roundStateOf round).proposedBlock c vote.blockHash = some block) :
    Backed c state round block := by
  unfold RoundState.proposedBlock at hblock
  split at hblock
  · rename_i msg hproposal
    split at hblock
    · rename_i hhash
      cases hblock
      exact ⟨vote, msg, hmajority, hhash, hproposal, rfl⟩
    · cases hblock
  · cases hblock

theorem Backed.extend (hbacked : Backed c state round block) (hextends : Extends state state') :
    Backed c state' round block := by
  rcases hbacked with ⟨vote, msg, hmajority, hhash, hproposal, hblock⟩
  exact ⟨vote, msg, hextends.majority round vote hmajority, hhash,
    hextends.proposal round msg hproposal, hblock⟩

theorem Held.extend {held : Option Block} (h : Held c state round held)
    (hextends : Extends state state') : Held c state' round held :=
  ⟨h.zero_iff, fun block hblock => (h.backed block hblock).extend hextends⟩

theorem Held.of_backed (hbacked : Backed c state round block) (hpos : 0 < round) :
    Held c state round (some block) := by
  refine ⟨?_, ?_⟩
  · constructor
    · intro hzero
      omega
    · nofun
  · rintro _ ⟨⟩
    exact hbacked

theorem held_none : Held c state 0 none := ⟨by simp, by simp⟩

theorem VoteSet.majority_count {type : VoteType} {set : VoteSet type} {power : Nat} {vote vote' : Vote}
    (h : set.twoThirdsMajority = some vote') :
    (set.count power vote).twoThirdsMajority = some vote' := by
  simp [VoteSet.count, h]

/-- A vote set that keeps its majority. -/
theorem extends_setVotes {type : VoteType} {set : VoteSet type}
    (hset : ∀ vote, ((state.roundStateOf round).votes type).twoThirdsMajority = some vote →
      set.twoThirdsMajority = some vote) :
    Extends state (state.setRoundState round ((state.roundStateOf round).setVotes type set)) := by
  refine ⟨?_, ?_⟩
  · intro round' vote hmajority
    have hvotes := state.votes_setVotes round type set .prevote round'
    rcases hvotes with ⟨rfl, rfl⟩ | hsame
    · rw [State.roundStateOf_setRoundState]
      exact hset vote hmajority
    · exact (congrArg VoteSet.twoThirdsMajority hsame).trans hmajority
  · intro round' msg hproposal
    by_cases hround : round' = round
    · subst hround
      rwa [State.roundStateOf_setRoundState, RoundState.proposal_setVotes]
    · rwa [State.roundStateOf_setRoundState_of_ne _ hround]

/-- A proposal where there was none. -/
theorem extends_setProposal {msg : ProposalMessage}
    (hnone : (state.roundStateOf round).proposal = none) :
    Extends state (state.setRoundState round
      { state.roundStateOf round with proposal := some msg }) := by
  refine ⟨?_, ?_⟩
  · intro round' vote hmajority
    have hvotes := state.votes_setProposal round (some msg) .prevote round'
    exact (congrArg VoteSet.twoThirdsMajority hvotes).trans hmajority
  · intro round' msg' hproposal
    by_cases hround : round' = round
    · subst hround
      rw [hnone] at hproposal
      cases hproposal
    · rwa [State.roundStateOf_setRoundState_of_ne _ hround]

/-- Locks that stay as they are. -/
theorem LocksJustified.frame (h : LocksJustified c state) (hextends : Extends state state')
    (hround : state.round ≤ state'.round) (hlocked : state'.lockedRound = state.lockedRound)
    (hlockedBlock : state'.lockedBlock = state.lockedBlock)
    (hvalid : state'.validRound = state.validRound)
    (hvalidBlock : state'.validBlock = state.validBlock) : LocksJustified c state' := by
  refine ⟨h.round_pos.trans_le hround, ?_, ?_, ?_⟩
  · rw [hlocked]
    exact h.locked_le.trans hround
  · rw [hlocked, hlockedBlock]
    exact h.locked.extend hextends
  · rw [hvalid, hvalidBlock]
    exact h.valid.extend hextends

theorem LocksJustified.change (h : LocksJustified c engine.state)
    (hchange : Change c config engine engine') : LocksJustified c engine'.state := by
  cases hchange with
  | idle hstate _ =>
      rw [hstate]
      exact h
  | proposal _ _ hnone _ hstate _ =>
      rw [hstate]
      exact h.frame (extends_setProposal hnone) le_rfl rfl rfl rfl rfl
  | stranger _ _ _ _ hstate _ =>
      rw [hstate]
      exact h.frame (extends_setVotes fun _ hmajority => hmajority) le_rfl rfl rfl rfl rfl
  | vote _ _ _ _ hstate _ =>
      rw [hstate]
      exact h.frame (extends_setVotes fun _ hmajority => VoteSet.majority_count hmajority) le_rfl
        rfl rfl rfl rfl
  | setStep hstate _ =>
      rw [hstate]
      exact h.frame (.of_roundStateOf rfl) le_rfl rfl rfl rfl rfl
  | lock hmajority hblock hstate _ =>
      -- the votes stay, so what backed the old lock backs it still
      have hsame : Extends engine.state engine'.state := by
        rw [hstate]
        exact .of_roundStateOf rfl
      have hbacked := (backed_of_proposedBlock hmajority hblock).extend hsame
      rw [hstate] at hsame hbacked ⊢
      exact ⟨h.round_pos, le_rfl, .of_backed hbacked h.round_pos, h.valid.extend hsame⟩
  | validBlock hround hmajority hblock hstate _ =>
      have hsame : Extends engine.state engine'.state := by
        rw [hstate]
        exact .of_roundStateOf rfl
      have hbacked := (backed_of_proposedBlock hmajority hblock).extend hsame
      rw [hstate] at hsame hbacked ⊢
      exact ⟨h.round_pos, h.locked_le, h.locked.extend hsame,
        .of_backed hbacked (Nat.zero_lt_of_lt hround)⟩
  | newRound hround hstate _ =>
      rw [hstate]
      exact h.frame (.of_roundStateOf rfl) hround.le rfl rfl rfl rfl
  | newHeight hstate _ =>
      rw [hstate]
      exact ⟨Nat.one_pos, Nat.zero_le _, held_none, held_none⟩

theorem LocksJustified.step (h : LocksJustified c engine.state) (event : Event) :
    LocksJustified c (engine.step c config event).state := by
  refine step_keeps (P := fun state _ => LocksJustified c state) event h ?_ ?_
  · intro _ _ hchange hbefore
    exact hbefore.change hchange
  · intro vote block
    exact h.frame (.of_roundStateOf rfl) le_rfl rfl rfl rfl rfl

theorem locksJustified_new (initialValidatorSet : ValidatorSet) :
    LocksJustified c (Engine.new c initialValidatorSet).state :=
  ⟨Nat.one_pos, Nat.zero_le _, held_none, held_none⟩

/-- From a state whose lock is not after the round, the locked and the valid round do not go back
unless a height is entered. -/
def locksForward : Fallible.Progress Engine where
  rel engine engine' := engine.state.lockedRound ≤ engine.state.round →
    engine'.state.lockedRound ≤ engine'.state.round ∧
      ∃ effects, engine'.trace = engine.trace ++ effects ∧
        ((∃ effect ∈ effects, effect.newHeight? ≠ none) ∨
          engine.state.lockedRound ≤ engine'.state.lockedRound ∧
            engine.state.validRound ≤ engine'.state.validRound)
  refl engine := fun hle => ⟨hle, [], by simp, .inr ⟨le_rfl, le_rfl⟩⟩
  trans := by
    intro engine engine' engine'' hfirst hsecond hle
    rcases hfirst hle with ⟨hle', effects, htrace, hfirst⟩
    rcases hsecond hle' with ⟨hle'', effects', htrace', hsecond⟩
    refine ⟨hle'', effects ++ effects', by rw [htrace', htrace, List.append_assoc], ?_⟩
    rcases hfirst with ⟨effect, hmem, hheight⟩ | hfirst
    · exact .inl ⟨effect, List.mem_append_left _ hmem, hheight⟩
    rcases hsecond with ⟨effect, hmem, hheight⟩ | hsecond
    · exact .inl ⟨effect, List.mem_append_right _ hmem, hheight⟩
    exact .inr ⟨hfirst.1.trans hsecond.1, hfirst.2.trans hsecond.2⟩

theorem Change.locksForward (hchange : Change c config engine engine') :
    ChainCore.locksForward.rel engine engine' := by
  intro hle
  cases hchange with
  | idle hstate htrace =>
      rw [hstate]
      exact ⟨hle, [], by simp [htrace], .inr ⟨le_rfl, le_rfl⟩⟩
  | proposal _ _ _ _ hstate htrace =>
      rw [hstate]
      exact ⟨hle, _, htrace, .inr ⟨le_rfl, le_rfl⟩⟩
  | stranger _ _ _ _ hstate htrace =>
      rw [hstate]
      exact ⟨hle, [], by simp [htrace], .inr ⟨le_rfl, le_rfl⟩⟩
  | vote _ _ _ _ hstate htrace =>
      rw [hstate]
      exact ⟨hle, _, htrace, .inr ⟨le_rfl, le_rfl⟩⟩
  | setStep hstate htrace =>
      rw [hstate]
      exact ⟨hle, [], by simp [htrace], .inr ⟨le_rfl, le_rfl⟩⟩
  | lock _ _ hstate htrace =>
      -- the lock goes to the current round, which is not before the old one
      rw [hstate]
      exact ⟨le_rfl, [], by simp [htrace], .inr ⟨hle, le_rfl⟩⟩
  | validBlock hround _ _ hstate htrace =>
      rw [hstate]
      exact ⟨hle, [], by simp [htrace], .inr ⟨le_rfl, hround.le⟩⟩
  | newRound hround hstate htrace =>
      rw [hstate]
      exact ⟨hle.trans hround.le, [], by simp [htrace], .inr ⟨le_rfl, le_rfl⟩⟩
  | newHeight hstate htrace =>
      rw [hstate]
      exact ⟨Nat.zero_le _, _, htrace, .inl ⟨_, List.mem_singleton_self _, nofun⟩⟩

theorem LocksJustified.locksForward (h : LocksJustified c engine.state) (event : Event) :
    LocksForward c config engine event := by
  have hrel : ChainCore.locksForward.rel engine (engine.step c config event) := by
    refine step_respects engine event (fun _ _ => Change.locksForward) ?_
    intro vote block engine' hstate htrace hle
    rw [hstate]
    exact ⟨hle, _, htrace, .inr ⟨le_rfl, le_rfl⟩⟩
  rcases hrel h.locked_le with ⟨-, effects, htrace, hforward⟩
  have hadded : added c config engine event = effects := by
    rw [added, htrace]
    exact List.drop_left
  intro hnone
  rw [hadded] at hnone
  rcases hforward with ⟨effect, hmem, hheight⟩ | hforward
  · exact absurd (hnone effect hmem) hheight
  · exact hforward

end Changes

/-- In every run of a node, whatever messages it gets: locks and valid blocks are justified in every
state, and within a height neither the locked nor the valid round goes back. -/
theorem locks_justified (c : Crypto) (config : Config) (initialValidatorSet : ValidatorSet)
    (events : List Event) :
    Throughout (Engine.step c config) (Engine.new c initialValidatorSet) events
      (fun engine => LocksJustified c engine.state) ∧
    Along (Engine.step c config) (Engine.new c initialValidatorSet) events
      (LocksForward c config) := by
  have hjustified : Throughout (Engine.step c config) (Engine.new c initialValidatorSet) events
      fun engine => LocksJustified c engine.state := by
    refine throughout ?_ ?_ events
    · exact locksJustified_new initialValidatorSet
    · intro engine event h
      exact h.step event
  refine ⟨hjustified, ?_⟩
  intro before event after hevents
  exact (hjustified before (event :: after) hevents).locksForward event

/-- A validator on its own locks its block in the first round. -/
example : Nodes.validatorAfter.state.lockedRound = 1 ∧ Nodes.validatorAfter.state.validRound = 1 := by
  decide +kernel


/-! ## The lock and the valid block -/

/-- The task looks at votes that have come in. -/
def Task.isCheck : Task → Bool
  | .checkValidBlock _ _ => true
  | .checkRoundSkip _ _ _ => true
  | _ => false

section Definitions

variable (c : Crypto) (config : Config)

/-- Once the votes that have come in were looked at, the lock is not newer than the valid block. -/
def LockNotNewer (engine : Engine) : Prop :=
  (∀ task ∈ engine.queue, task.isCheck = false) →
    engine.state.lockedRound ≤ engine.state.validRound

/-- A proposal that is recorded and passed on at the event comes before the majority of prevotes for
its block, or before that majority was looked at. -/
def ProposedInTime (engine : Engine) (event : Event) : Prop :=
  ∀ msg, .gossip (.proposal msg) ∈ added c config engine event →
    (∀ vote ∈ (engine.state.roundStateOf msg.proposal.round).prevote.twoThirdsMajority,
      vote.blockHash ≠ msg.proposal.block.hash c) ∨
    .checkValidBlock engine.state.height msg.proposal.round ∈ engine.queue

/-- A round that could give a valid block has given it, or will be looked at. -/
def Noticed (engine : Engine) : Prop :=
  ∀ round block, Backed c engine.state round block → round ≤ engine.state.validRound ∨
    .checkValidBlock engine.state.height round ∈ engine.queue

end Definitions

/-- What the code of a round does to votes and proposals: a new majority of prevotes is followed by a
task that looks at it, and a new proposal is passed on. -/
structure Follows (engine engine' : Engine) : Prop where
  extend : Extends engine.state engine'.state
  height : engine'.state.height = engine.state.height
  queue : engine.queue <+: engine'.queue
  valid : engine.state.validRound ≤ engine'.state.validRound
  majority : ∀ round vote,
    (engine'.state.roundStateOf round).prevote.twoThirdsMajority = some vote →
      (engine.state.roundStateOf round).prevote.twoThirdsMajority = some vote ∨
        .checkValidBlock engine'.state.height round ∈ engine'.queue
  proposal : ∃ effects, engine'.trace = engine.trace ++ effects ∧ ∀ round msg,
    (engine'.state.roundStateOf round).proposal = some msg →
      (engine.state.roundStateOf round).proposal = some msg ∨
        msg.proposal.round = round ∧ .gossip (.proposal msg) ∈ effects

theorem Follows.refl (engine : Engine) : Follows engine engine :=
  ⟨.of_roundStateOf rfl, rfl, List.prefix_rfl, le_rfl, fun _ _ h => .inl h,
    [], by simp, fun _ _ h => .inl h⟩

theorem Follows.trans {engine engine' engine'' : Engine} (h : Follows engine engine')
    (h' : Follows engine' engine'') : Follows engine engine'' := by
  refine ⟨⟨?_, ?_⟩, h'.height.trans h.height, h.queue.trans h'.queue, h.valid.trans h'.valid, ?_, ?_⟩
  · intro round vote hmajority
    exact h'.extend.majority round vote (h.extend.majority round vote hmajority)
  · intro round msg hproposal
    exact h'.extend.proposal round msg (h.extend.proposal round msg hproposal)
  · intro round vote hmajority
    -- a majority is from before, or the check of its block has been queued on the way
    rcases h'.majority round vote hmajority with hbefore | hnew
    · rcases h.majority round vote hbefore with hold | hqueued
      · exact .inl hold
      · rw [h'.height]
        exact .inr (h'.queue.subset hqueued)
    · exact .inr hnew
  · rcases h.proposal with ⟨effects, htrace, hproposal⟩
    rcases h'.proposal with ⟨effects', htrace', hproposal'⟩
    refine ⟨effects ++ effects', by rw [htrace', htrace, List.append_assoc], ?_⟩
    intro round msg hmsg
    rcases hproposal' round msg hmsg with hbefore | ⟨hround, hnew⟩
    · rcases hproposal round msg hbefore with hold | ⟨hround, hnew⟩
      · exact .inl hold
      · exact .inr ⟨hround, List.mem_append_left _ hnew⟩
    · exact .inr ⟨hround, List.mem_append_right _ hnew⟩

def follows : Fallible.Progress Engine where
  rel := Follows
  refl := Follows.refl
  trans := Follows.trans

section Follows

variable {c : Crypto} {config : Config} {engine engine' : Engine}

/-- The votes and proposals are the same. -/
theorem follows_of_roundStateOf (hround : engine'.state.roundStateOf = engine.state.roundStateOf)
    (hheight : engine'.state.height = engine.state.height) (hqueue : engine.queue <+: engine'.queue)
    (htrace : engine.trace <+: engine'.trace)
    (hvalid : engine.state.validRound ≤ engine'.state.validRound) : Follows engine engine' := by
  rcases htrace with ⟨effects, htrace⟩
  refine ⟨.of_roundStateOf hround, hheight, hqueue, hvalid, ?_, effects, htrace.symm, ?_⟩
  · intro round vote hmajority
    rw [hround] at hmajority
    exact .inl hmajority
  · intro round msg hproposal
    rw [hround] at hproposal
    exact .inl hproposal

theorem follows_handleProposal (msg : ProposalMessage) :
    Fallible.Respects follows (handleProposal c config msg) := by
  intro engine
  refine (ends_handleProposal (follows.refl engine) ?_).final
  intro _ _ hnone _
  refine ⟨extends_setProposal hnone, rfl, List.prefix_rfl, le_rfl, ?_, _, rfl, ?_⟩
  · intro round vote hmajority
    have hvotes := engine.state.votes_setProposal msg.proposal.round (some msg) .prevote round
    exact .inl ((congrArg VoteSet.twoThirdsMajority hvotes).symm.trans hmajority)
  · intro round msg' hproposal
    by_cases hround : round = msg.proposal.round
    · subst hround
      rw [State.roundStateOf_setRoundState] at hproposal
      obtain rfl := Option.some.inj hproposal
      exact .inr ⟨rfl, List.mem_singleton_self _⟩
    · rw [State.roundStateOf_setRoundState_of_ne _ hround] at hproposal
      exact .inl hproposal

/-- A recorded vote, with what is queued after it. -/
theorem follows_recordVote {type : VoteType} {msg : VoteMessage type} {set : VoteSet type}
    (hstate : engine'.state = (recordVote engine msg set).state)
    (hqueue : engine.queue <+: engine'.queue) (htrace : engine.trace <+: engine'.trace)
    (hset : ∀ vote, ((engine.state.roundStateOf msg.vote.round).votes type).twoThirdsMajority =
      some vote → set.twoThirdsMajority = some vote)
    (hcheck : type = .prevote → ∀ vote, set.twoThirdsMajority = some vote →
      ((engine.state.roundStateOf msg.vote.round).votes type).twoThirdsMajority = some vote ∨
        .checkValidBlock engine.state.height msg.vote.round ∈ engine'.queue) :
    Follows engine engine' := by
  rcases htrace with ⟨effects, htrace⟩
  refine ⟨?_, ?_, hqueue, ?_, ?_, effects, htrace.symm, ?_⟩
  · rw [hstate]
    exact extends_setVotes hset
  · rw [hstate]
    rfl
  · rw [hstate]
    exact le_rfl
  · intro round vote hmajority
    rw [hstate] at hmajority ⊢
    -- the votes that were recorded, or others
    rcases engine.state.votes_setVotes msg.vote.round type set .prevote round with
      ⟨rfl, rfl⟩ | hsame
    · unfold recordVote at hmajority
      rw [State.roundStateOf_setRoundState] at hmajority
      exact hcheck rfl vote hmajority
    · exact .inl ((congrArg VoteSet.twoThirdsMajority hsame).symm.trans hmajority)
  · intro round msg' hproposal
    rw [hstate] at hproposal
    unfold recordVote at hproposal
    by_cases hround : round = msg.vote.round
    · subst hround
      rw [State.roundStateOf_setRoundState, RoundState.proposal_setVotes] at hproposal
      exact .inl hproposal
    · rw [State.roundStateOf_setRoundState_of_ne _ hround] at hproposal
      exact .inl hproposal

theorem follows_handlePrevote (msg : PrevoteMessage) :
    Fallible.Respects follows (handlePrevote c config msg) := by
  intro engine
  refine (ends_handleVote (fun _ => follows.refl engine) ?_ ?_).final
  · intro address e _ _ _ _
    exact follows_recordVote rfl List.prefix_rfl List.prefix_rfl (fun _ h => h) fun _ _ h => .inl h
  · intro address power hheight _ _ _
    refine follows_recordVote rfl ?_ (List.prefix_append _ _)
      (fun _ h => VoteSet.majority_count h) ?_
    · exact (List.prefix_append _ _).trans (List.prefix_append _ _)
    · -- the round is looked at after the vote was recorded
      intro _ vote _
      rw [← hheight]
      exact .inr (by simp)

theorem follows_handlePrecommit (msg : PrecommitMessage) :
    Fallible.Respects follows (handlePrecommit c config msg) := by
  intro engine
  refine (ends_handleVote (fun _ => follows.refl engine) ?_ ?_).final
  · intro address e _ _ _ _
    exact follows_recordVote rfl List.prefix_rfl List.prefix_rfl (fun _ h => h) nofun
  · intro address power _ _ _ _
    exact follows_recordVote rfl (List.prefix_append _ _) (List.prefix_append _ _)
      (fun _ h => VoteSet.majority_count h) nofun

theorem follows_sendPrevoteMessage (blockHash : Option Hash) :
    Fallible.Respects follows (sendPrevoteMessage c config blockHash) :=
  respects_sendVote follows_handlePrevote blockHash

theorem follows_sendPrecommitMessage (blockHash : Option Hash) :
    Fallible.Respects follows (sendPrecommitMessage c config blockHash) :=
  respects_sendVote follows_handlePrecommit blockHash

theorem parts_follows : Parts c config follows where
  idle hstate htrace hqueue := follows_of_roundStateOf (by rw [hstate]) (by rw [hstate]) hqueue
    (by rw [htrace]) (by rw [hstate])
  setStep _ _ := follows_of_roundStateOf rfl rfl List.prefix_rfl List.prefix_rfl le_rfl
  proposal := follows_handleProposal
  prevote := follows_sendPrevoteMessage none
  precommit := follows_sendPrecommitMessage
  lock _ _ := follows_of_roundStateOf rfl rfl List.prefix_rfl List.prefix_rfl le_rfl
  validBlock hround _ _ :=
    follows_of_roundStateOf rfl rfl List.prefix_rfl List.prefix_rfl hround.le
  newRound _ := follows_of_roundStateOf rfl rfl List.prefix_rfl List.prefix_rfl le_rfl

/-- A task that enters no height. -/
theorem follows_task {task : Task} (hheight : task.isNewHeight = false) (world : World)
    (engine : Engine) : Follows engine (settle task (task.run c config world engine)) := by
  have hparts : Parts c config follows := parts_follows
  refine hparts.settle (hparts.round.task task ?_ ?_ ?_) task
  · intro _ _
    exact Parts.doPropose follows_sendPrevoteMessage world engine
  · intro vote block _ _ _ _
    exact follows_of_roundStateOf rfl rfl List.prefix_rfl (List.prefix_append _ _) le_rfl
  · rintro height _ _ _ rfl
    cases hheight

end Follows

section Noticed

variable {c : Crypto} {config : Config} {engine engine' : Engine}

theorem Noticed.follow (h : Noticed c engine) (hfollows : Follows engine engine')
    (htime : ∀ msg, .gossip (.proposal msg) ∈ engine'.trace.drop engine.trace.length →
      (∀ vote ∈ (engine.state.roundStateOf msg.proposal.round).prevote.twoThirdsMajority,
        vote.blockHash ≠ msg.proposal.block.hash c) ∨
      .checkValidBlock engine.state.height msg.proposal.round ∈ engine.queue) :
    Noticed c engine' := by
  rintro round block ⟨vote, msg, hmajority, hhash, hproposal, hblock⟩
  have hqueued : .checkValidBlock engine.state.height round ∈ engine.queue →
      .checkValidBlock engine'.state.height round ∈ engine'.queue := by
    intro hmem
    rw [hfollows.height]
    exact hfollows.queue.subset hmem
  rcases hfollows.proposal with ⟨effects, htrace, hproposals⟩
  rcases hfollows.majority round vote hmajority with hbefore | hnew
  · rcases hproposals round msg hproposal with hknown | ⟨rfl, hnew⟩
    · -- nothing is new about the round
      rcases h round block ⟨vote, msg, hbefore, hhash, hknown, hblock⟩ with hle | hmem
      · exact .inl (hle.trans hfollows.valid)
      · exact .inr (hqueued hmem)
    · rw [htrace, List.drop_left] at htime
      rcases htime msg hnew with hnot | hmem
      · rw [← hblock] at hhash
        exact absurd hhash (hnot vote hbefore)
      · exact .inr (hqueued hmem)
  · exact .inr hnew

/-- The state after the task that looks at a round. -/
def checkedState (c : Crypto) (height round : Nat) (state : State) : State :=
  if state.height ≠ height ∨ round ≤ state.validRound then state
  else
    match (state.roundStateOf round).prevote.twoThirdsMajority with
    | none => state
    | some vote =>
        match (state.roundStateOf round).proposedBlock c vote.blockHash with
        | some block => { state with validRound := round, validBlock := some block }
        | none => state

theorem final_runCheckValidBlock (engine : Engine) (height round : Nat) :
    Fallible.final (runCheckValidBlock c height round engine) =
      { engine with state := checkedState c height round engine.state } := rfl

/-- What the task that looks at a round does: it takes the valid block of the round, or there is a
reason not to. -/
theorem runCheckValidBlock_cases (engine : Engine) (height round : Nat) :
    (∃ block, Fallible.final (runCheckValidBlock c height round engine) =
      { engine with state := { engine.state with validRound := round, validBlock := some block } } ∧
      engine.state.validRound < round) ∨
    Fallible.final (runCheckValidBlock c height round engine) = engine ∧
      (engine.state.height ≠ height ∨ round ≤ engine.state.validRound ∨
        ∀ block, ¬ Backed c engine.state round block) := by
  rw [final_runCheckValidBlock, checkedState]
  split
  · rename_i hskip
    refine .inr ⟨rfl, ?_⟩
    rcases hskip with hheight | hround
    · exact .inl hheight
    · exact .inr (.inl hround)
  · rename_i hskip
    cases hmajority : (engine.state.roundStateOf round).prevote.twoThirdsMajority with
    | none =>
        refine .inr ⟨rfl, .inr (.inr ?_)⟩
        -- without a majority no block is backed
        rintro block ⟨vote, msg, hvote, -⟩
        rw [hmajority] at hvote
        cases hvote
    | some vote =>
        simp only
        cases hblock : (engine.state.roundStateOf round).proposedBlock c vote.blockHash with
        | some block => exact .inl ⟨block, rfl, by omega⟩
        | none =>
            refine .inr ⟨rfl, .inr (.inr ?_)⟩
            -- the majority is for a block whose proposal is not there
            rintro block ⟨vote', msg, hvote, hhash, hproposal, rfl⟩
            obtain rfl := Option.some.inj (hmajority.symm.trans hvote)
            simp only [RoundState.proposedBlock, hproposal, if_pos hhash] at hblock
            cases hblock

/-- The task that looks at a round runs. -/
theorem Noticed.checked {height round : Nat} {queue : List Task} (h : Noticed c engine)
    (hqueue : engine.queue = .checkValidBlock height round :: queue) :
    Noticed c (Fallible.final (runCheckValidBlock c height round { engine with queue })) := by
  -- a backed block is noticed by its round, by another task in the queue or by this one
  have hrest : ∀ round' block, Backed c engine.state round' block →
      round' ≤ engine.state.validRound ∨ .checkValidBlock engine.state.height round' ∈ queue ∨
        engine.state.height = height ∧ round' = round := by
    intro round' block hbacked
    rcases h round' block hbacked with hle | hmem
    · exact .inl hle
    · rw [hqueue] at hmem
      rcases List.mem_cons.mp hmem with heq | hmem
      · cases heq
        exact .inr (.inr ⟨rfl, rfl⟩)
      · exact .inr (.inl hmem)
  rcases @runCheckValidBlock_cases c { engine with queue } height round with
    ⟨block, hrun, hlt⟩ | ⟨hrun, hreason⟩
  · rw [hrun]
    intro round' block' hbacked
    rcases hrest round' block' hbacked with hle | hmem | ⟨-, rfl⟩
    · exact .inl (hle.trans hlt.le)
    · exact .inr hmem
    · exact .inl le_rfl
  · rw [hrun]
    intro round' block' hbacked
    rcases hrest round' block' hbacked with hle | hmem | ⟨hheight, rfl⟩
    · exact .inl hle
    · exact .inr hmem
    · rcases hreason with hne | hle | hnot
      · exact absurd hheight hne
      · exact .inl hle
      · exact absurd hbacked (hnot block')

/-- A height that was just entered has no votes. -/
theorem noticed_newHeight {height : Nat} {appStateHash nextValidatorSetRoot eventTransactionRoot : Hash}
    {validatorSet : ValidatorSet} {state : State}
    (hstate : engine.state = state.newHeight height appStateHash validatorSet nextValidatorSetRoot
      eventTransactionRoot) : Noticed c engine := by
  rintro round block ⟨vote, msg, hmajority, -⟩
  rw [hstate] at hmajority
  cases hmajority

theorem Noticed.step (h : Noticed c engine) {event : Event}
    (htime : ProposedInTime c config engine event) : Noticed c (engine.step c config event) := by
  by_cases hacquire : ∃ world, event = .acquire world
  · rcases hacquire with ⟨world, rfl⟩
    unfold ProposedInTime added at htime
    rw [Engine.step] at htime ⊢
    split at htime
    · rename_i task queue hholder hqueue
      -- a task that is no look at a round leaves these in the queue
      have hpopped : (∀ height round, task ≠ .checkValidBlock height round) →
          ∀ height round, .checkValidBlock height round ∈ engine.queue →
            .checkValidBlock height round ∈ queue := by
        intro hne height round hmem
        rw [hqueue] at hmem
        rcases List.mem_cons.mp hmem with heq | hmem
        · exact absurd heq.symm (hne height round)
        · exact hmem
      have hround : (∀ height round, task ≠ .checkValidBlock height round) →
          Follows { engine with queue }
            (settle task (task.run c config world { engine with queue })) →
          Noticed c (settle task (task.run c config world { engine with queue })) := by
        intro hne hfollows
        have hbefore : Noticed c { engine with queue } := by
          intro round block hbacked
          rcases h round block hbacked with hle | hmem
          · exact .inl hle
          · exact .inr (hpopped hne _ _ hmem)
        refine hbefore.follow hfollows ?_
        intro msg hnew
        rcases htime msg hnew with hnot | hmem
        · exact .inl hnot
        · exact .inr (hpopped hne _ _ hmem)
      cases task with
      | checkValidBlock height round => exact h.checked hqueue
      | newHeight height appStateHash nextValidatorSetRoot eventTransactionRoot =>
          exact noticed_newHeight rfl
      | proceedConsensus => exact hround (by simp) (follows_task rfl world _)
      | proposeTimeout height round => exact hround (by simp) (follows_task rfl world _)
      | checkRoundSkip height round type => exact hround (by simp) (follows_task rfl world _)
    · exact h
  · push Not at hacquire
    refine h.follow (parts_follows.other hacquire ?_) htime
    rintro msg rfl
    cases msg with
    | proposal msg => exact follows_handleProposal msg engine
    | prevote msg => exact follows_handlePrevote msg engine
    | precommit msg => exact follows_handlePrecommit msg engine

/-- A lock rests on a round that was noticed. -/
theorem Noticed.lockNotNewer (h : Noticed c engine) (hlocks : LocksJustified c engine.state) :
    LockNotNewer engine := by
  intro hidle
  cases hlocked : engine.state.lockedBlock with
  | none =>
      rw [hlocks.locked.zero_iff.mpr hlocked]
      exact Nat.zero_le _
  | some block =>
      rcases h _ block (hlocks.locked.backed block hlocked) with hle | hmem
      · exact hle
      · cases hidle _ hmem

end Noticed

/-- In every run in which the proposals come in time, the lock is not newer than the valid block. -/
theorem lock_not_newer (c : Crypto) (config : Config) (initialValidatorSet : ValidatorSet)
    (events : List Event)
    (htime : Along (Engine.step c config) (Engine.new c initialValidatorSet) events
      (ProposedInTime c config)) :
    Throughout (Engine.step c config) (Engine.new c initialValidatorSet) events LockNotNewer := by
  have hboth : Throughout (Engine.step c config) (Engine.new c initialValidatorSet) events
      fun engine => LocksJustified c engine.state ∧ Noticed c engine := by
    refine htime.throughout ?_ ?_
    · refine ⟨locksJustified_new initialValidatorSet, ?_⟩
      rintro round block ⟨vote, msg, hmajority, -⟩
      cases hmajority
    · rintro engine event ⟨hlocks, hnoticed⟩ hevent
      exact ⟨hlocks.step event, hnoticed.step hevent⟩
  intro before after hevents
  rcases hboth before after hevents with ⟨hlocks, hnoticed⟩
  exact hnoticed.lockNotNewer hlocks

section Sample

/-- The proposal that is passed on. -/
def Effect.proposal? : Effect → Option ProposalMessage
  | .gossip (.proposal msg) => some msg
  | _ => none

theorem proposedInTime_iff {c : Crypto} {config : Config} {engine : Engine} {event : Event} :
    ProposedInTime c config engine event ↔
      ∀ effect ∈ added c config engine event, ∀ msg ∈ effect.proposal?,
        (∀ vote ∈ (engine.state.roundStateOf msg.proposal.round).prevote.twoThirdsMajority,
          vote.blockHash ≠ msg.proposal.block.hash c) ∨
        .checkValidBlock engine.state.height msg.proposal.round ∈ engine.queue := by
  constructor
  · intro h effect hmem msg hmsg
    refine h msg ?_
    cases effect with
    | gossip other =>
        cases other with
        | proposal other =>
            cases hmsg
            exact hmem
        | prevote _ => cases hmsg
        | precommit _ => cases hmsg
    | commitBlock _ _ _ => cases hmsg
    | newHeight _ _ => cases hmsg
  · intro h msg hmem
    exact h _ hmem msg rfl

instance (c : Crypto) (config : Config) (engine : Engine) (event : Event) :
    Decidable (ProposedInTime c config engine event) :=
  decidable_of_iff _ proposedInTime_iff.symm

/-- The validator proposes before it prevotes. -/
theorem proposedInTime_validatorRun :
    Along (Engine.step .transparent (Nodes.validatorAndObserver.config true))
      (Engine.new .transparent soleValidatorSet) Nodes.validatorRun
      (ProposedInTime .transparent (Nodes.validatorAndObserver.config true)) := by
  decide +kernel

theorem lock_not_newer_validator :
    Throughout (Engine.step .transparent (Nodes.validatorAndObserver.config true))
      (Engine.new .transparent soleValidatorSet) Nodes.validatorRun LockNotNewer :=
  lock_not_newer .transparent _ soleValidatorSet Nodes.validatorRun proposedInTime_validatorRun

/-- A validator with most of the power, and one with little. -/
def unevenValidatorSet : ValidatorSet :=
  ⟨[⟨(Consensus.sampleKey 2).address .transparent, 10⟩,
    ⟨(Consensus.sampleKey 1).address .transparent, 1⟩]⟩

/-- What the first of them sends in the first round: its proposal and its prevote. -/
def proposalAndPrevote : List ConsensusMessage :=
  let genesis := sampleGenesis.hash .transparent
  (match ConsensusMessage.signProposal .transparent ⟨1, 1, 0, sampleGenesis⟩ genesis
      (Consensus.sampleKey 2) with
    | .ok msg => [.proposal msg]
    | .error _ => []) ++
  (match ConsensusMessage.signVote .transparent .prevote ⟨1, 1, genesis⟩ genesis
      (Consensus.sampleKey 2) with
    | .ok msg => [.prevote msg]
    | .error _ => [])

/-- The other one gets the prevote, waits for the proposal until the timeout, and then gets it. -/
def lateProposalRun : List Event :=
  let acquire := Event.acquire Nodes.sampleWorld
  [.setNewHeight 1 Hash.zero unevenValidatorSet Hash.zero Hash.zero, acquire, .start] ++
    (proposalAndPrevote.drop 1).map .newConsensusMessage ++ [acquire, acquire] ++
    [.loop, acquire, .timeout (.propose 1 1), acquire, .resume .done, acquire, acquire] ++
    (proposalAndPrevote.take 1).map .newConsensusMessage ++
    [.loop, acquire, .resume .done, acquire]

/-- It has locked the block, and all votes were looked at, but it has seen no valid block. -/
theorem lock_without_validBlock :
    let engine := (Engine.new .transparent unevenValidatorSet).run .transparent
      (Nodes.validatorAndObserver.config true) lateProposalRun
    engine.queue = [] ∧ engine.state.lockedRound = 1 ∧ engine.state.validRound = 0 ∧
      ¬ LockNotNewer engine := by
  have hqueue : ((Engine.new .transparent unevenValidatorSet).run .transparent
      (Nodes.validatorAndObserver.config true) lateProposalRun).queue = [] := by decide +kernel
  have hlocked : ((Engine.new .transparent unevenValidatorSet).run .transparent
      (Nodes.validatorAndObserver.config true) lateProposalRun).state.lockedRound = 1 := by
    decide +kernel
  have hvalid : ((Engine.new .transparent unevenValidatorSet).run .transparent
      (Nodes.validatorAndObserver.config true) lateProposalRun).state.validRound = 0 := by
    decide +kernel
  refine ⟨hqueue, hlocked, hvalid, ?_⟩
  intro hnot
  unfold LockNotNewer at hnot
  rw [hqueue, hlocked, hvalid] at hnot
  exact absurd (hnot nofun) (by decide)

end Sample

end ChainCore
end UniqysKit
