import UniqysKit.ChainCore.Agreement

/-!
# Votes for blocks that were not validated

`doPropose` tests the promise of `validateBlock`, not what it resolves to, so the answer never
matters.  `ProposalChecked` is what the surroundings would have to ensure instead: where the lock
and the votes so far let the node prevote for the proposed block, the block is valid.
`prevotes_validated_iff` says that the node's prevotes in a run are for valid blocks exactly if that
holds at each step of the run.
-/

namespace UniqysKit
namespace ChainCore

open Library Engine

section Definitions

variable (c : Crypto) (config : Config)

/-- The lock lets the node prevote for the proposed block. -/
def LockAllows (state : State) (proposal : Proposal) : Prop :=
  state.lockedRound = 0 ∨
    (state.lockedBlock.any fun block => block.hash c = proposal.block.hash c) = true ∨
    state.lockedRound ≤ proposal.lockedRound ∧
      ((state.roundStateOf proposal.lockedRound).prevote.twoThirdsMajority.any fun vote =>
        vote.blockHash = proposal.block.hash c) = true

/-- A prevote of the node in its round would be sent: it can sign one, has power at the height and
has not prevoted in the round. -/
def CanPrevote (engine : Engine) : Prop :=
  CanSign c config engine ∧ ∃ address ∈ config.address c,
    ¬ engine.state.currentRoundState.prevote.has address = true ∧
      ∃ power, engine.state.currentRoundState.prevote.validatorSet.powerOf address = .ok power

/-- The prevotes for a block that the node makes at this event are for the block of the current
proposal, and `validateBlock` resolves to true for it. -/
def PrevotesValidated (engine : Engine) (event : Event) : Prop :=
  event.message = none → ∀ msg : PrevoteMessage, .gossip (.prevote msg) ∈ added c config engine event →
    msg.vote.blockHash ≠ Hash.zero →
      ∃ world proposal, event = .acquire world ∧
        engine.state.currentRoundState.proposal = some proposal ∧
        msg.vote.blockHash = proposal.proposal.block.hash c ∧
        validateBlock c config world engine.state proposal.proposal.block = true

/-- If `doPropose` comes next and nothing else keeps the node from a prevote for the proposed block,
then the block is valid. -/
def ProposalChecked (engine : Engine) (event : Event) : Prop :=
  ∀ world queue proposal, event = .acquire world → engine.holder = none →
    engine.queue = .proceedConsensus :: queue → engine.state.step = .propose →
    engine.state.currentRoundState.proposal = some proposal →
    proposal.proposal.block.hash c ≠ Hash.zero → LockAllows c engine.state proposal.proposal →
    CanPrevote c config engine →
      validateBlock c config world engine.state proposal.proposal.block = true

end Definitions

section Steps

variable {c : Crypto} {config : Config} {engine : Engine}

/-- What `sendPrevoteMessage` adds to the trace, and when. -/
theorem trace_sendPrevoteMessage (blockHash : Option Hash) :
    (¬ CanPrevote c config engine ∧
      (Fallible.final (sendPrevoteMessage c config blockHash engine)).trace = engine.trace) ∨
    CanPrevote c config engine ∧ ∃ msg : PrevoteMessage,
      msg.vote.blockHash = blockHash.getD Hash.zero ∧
      (Fallible.final (sendPrevoteMessage c config blockHash engine)).trace =
        engine.trace ++ [.gossip (.prevote msg)] := by
  let P : Engine → Prop := fun engine' =>
    (¬ CanPrevote c config engine ∧ engine'.trace = engine.trace) ∨
    CanPrevote c config engine ∧ ∃ msg : PrevoteMessage,
      msg.vote.blockHash = blockHash.getD Hash.zero ∧
      engine'.trace = engine.trace ++ [.gossip (.prevote msg)]
  suffices hends : Fallible.Ends (sendPrevoteMessage c config blockHash) engine (fun _ => P) P from
    hends.final
  refine ends_sendVote (fun hcan => .inl ⟨fun hprevote => hcan hprevote.1, rfl⟩) ?_
  intro address msg hcan ha hsigner hvote
  have hround : msg.vote.round = engine.state.round := by rw [hvote]
  -- the votes that `handleVote` looks at are those of the current round
  have hset : (engine.state.roundStateOf msg.vote.round).votes .prevote =
      engine.state.currentRoundState.prevote := by
    rw [hround]
    rfl
  have hunique : ∀ address' ∈ config.address c, address' = address := fun _ ha' =>
    Option.mem_unique ha' ha
  refine ends_handleVote ?_ ?_ ?_
  · intro hdropped
    refine .inl ⟨?_, rfl⟩
    rintro ⟨-, address', ha', hhas, -⟩
    obtain rfl := hunique address' ha'
    have hhas' := hdropped (by rw [hvote]) address' hsigner
    rw [hset] at hhas'
    exact hhas hhas'
  · intro address' e _ hsigner' _ hpower
    refine .inl ⟨?_, rfl⟩
    rintro ⟨-, address'', ha'', -, power, hpower'⟩
    obtain rfl := hunique address'' ha''
    obtain rfl : address'' = address' := Except.ok.inj (hsigner.symm.trans hsigner')
    rw [hset, hpower'] at hpower
    cases hpower
  · intro address' power _ hsigner' hhas hpower
    obtain rfl : address = address' := Except.ok.inj (hsigner.symm.trans hsigner')
    rw [hset] at hhas hpower
    refine (silent_checkValidBlock msg.vote.height msg.vote.round _).mono ?_ fun _ => False.elim
    rintro _ engine' ⟨-, htrace, -⟩
    refine .inr ⟨⟨hcan, address, ha, hhas, power, hpower⟩, msg, ?_, htrace⟩
    rw [hvote]

/-- What `doPropose` does with a proposal: the lock decides, and the world does not matter. -/
theorem doPropose_cases {world : World} {msg : ProposalMessage}
    (hproposal : engine.state.currentRoundState.proposal = some msg) :
    (LockAllows c engine.state msg.proposal ∧ doPropose c config world engine =
      (do
        sendPrevoteMessage c config (some (msg.proposal.block.hash c))
        return some Await.sendPrevoteMessage) engine) ∨
    ¬ LockAllows c engine.state msg.proposal ∧
      (doPropose c config world engine = .ok none engine ∨ doPropose c config world engine =
        (do
          sendPrevoteMessage c config none
          return some Await.sendPrevoteMessage) engine) := by
  -- the promise of `validateBlock` counts as true, whatever it will be settled with
  have hpromise : ¬ ¬ promiseIsTruthy
      (validateBlock c config world engine.state msg.proposal.block) = true := not_not.mpr rfl
  rw [doPropose, Fallible.get_bind]
  simp only [hproposal]
  rw [if_neg hpromise]
  split
  · rename_i hlocked
    refine .inr ⟨?_, .inr rfl⟩
    rintro (hzero | hblock | ⟨hle, -⟩)
    · omega
    · exact hlocked.2 hblock
    · omega
  · split
    · rename_i hallows
      exact .inl ⟨hallows.elim .inl fun hblock => .inr (.inl hblock), rfl⟩
    · split
      · rename_i hmajority
        exact .inl ⟨.inr (.inr hmajority), rfl⟩
      · rename_i hnot hmajority
        refine .inr ⟨?_, .inl rfl⟩
        rintro (hzero | hblock | hquorum)
        · exact hnot (.inl hzero)
        · exact hnot (.inr hblock)
        · exact hmajority hquorum

theorem final_sendPrevoteMessage_bind (blockHash : Option Hash) :
    Fallible.final ((do
      sendPrevoteMessage c config blockHash
      return some Await.sendPrevoteMessage) engine) =
        Fallible.final (sendPrevoteMessage c config blockHash engine) := by
  rcases Fallible.bind_cases (sendPrevoteMessage c config blockHash)
      (fun _ => pure (some Await.sendPrevoteMessage)) engine with
    ⟨a, engine', hsend, hbind⟩ | ⟨e, engine', hsend, hbind⟩
  · rw [hbind, hsend]
    rfl
  · rw [hbind, hsend]
    rfl

/-- A checked proposal is the only thing the node prevotes for. -/
theorem ProposalChecked.prevotesValidated {event : Event}
    (hchecked : ProposalChecked c config engine event) :
    PrevotesValidated c config engine event := by
  intro hmessage
  -- what the node may say in this step, apart from other things than votes for a block
  let allowed : Effect → Prop := fun effect => ∀ msg : PrevoteMessage,
    effect = .gossip (.prevote msg) → msg.vote.blockHash ≠ Hash.zero →
      ∃ world proposal, event = .acquire world ∧
        engine.state.currentRoundState.proposal = some proposal ∧
        msg.vote.blockHash = proposal.proposal.block.hash c ∧
        validateBlock c config world engine.state proposal.proposal.block = true
  -- a prevote for nothing is always allowed, and nothing else that a step emits is a prevote
  have htolerates : Tolerates c config allowed := by
    refine ⟨nofun, ?_, nofun, nofun, nofun⟩
    rintro msg - hnil _ ⟨⟩ hne
    exact absurd hnil hne
  have hemits : (emits allowed).rel engine (engine.step c config event) := by
    refine emits_step htolerates engine event ?_ ?_
    · intro msg hmsg
      rw [hmessage] at hmsg
      cases hmsg
    · intro world queue hevent hholder hqueue hstep
      cases hproposal : engine.state.currentRoundState.proposal with
      | none =>
          refine emits_of_trace_eq ?_
          rw [doPropose, Fallible.get_bind]
          simp only [hproposal]
          rfl
      | some proposal =>
          rcases @doPropose_cases c config { engine with queue } world proposal hproposal with
            ⟨hallows, hdo⟩ | ⟨-, hdo | hdo⟩
          · rw [hdo, final_sendPrevoteMessage_bind]
            rcases @trace_sendPrevoteMessage c config { engine with queue }
                (some (proposal.proposal.block.hash c)) with ⟨-, hsame⟩ | ⟨hcan, msg, hhash, happend⟩
            · exact emits_of_trace_eq hsame
            · -- the one place where the node prevotes for a block
              refine emits_of_append ?_ happend
              rintro _ ⟨⟩ hne
              rw [Option.getD_some] at hhash
              refine ⟨world, proposal, hevent, hproposal, hhash, ?_⟩
              exact hchecked world queue proposal hevent hholder hqueue hstep hproposal
                (fun hzero => hne (hhash.trans hzero)) hallows hcan
          · rw [hdo]
            exact emits_of_trace_eq rfl
          · rw [hdo, final_sendPrevoteMessage_bind]
            exact emits_sendPrevoteMessage htolerates.prevote _
  rcases hemits with ⟨effects, htrace, hall⟩
  intro msg hmem
  rw [added, htrace, List.drop_left] at hmem
  exact hall _ hmem msg rfl

/-- The node prevotes for a proposal that it could not reject by the lock, checked or not. -/
theorem PrevotesValidated.proposalChecked {event : Event}
    (hvalidated : PrevotesValidated c config engine event) :
    ProposalChecked c config engine event := by
  rintro world queue proposal rfl hholder hqueue hstep hproposal hne hallows hcan
  have hrun : Task.run c config world .proceedConsensus { engine with queue } =
      doPropose c config world { engine with queue } := by
    rw [Task.run, proceedConsensus, Fallible.get_bind]
    simp only [hstep]
  -- the step is the run of this one task
  have htrace : (engine.step c config (.acquire world)).trace =
      (Fallible.final (doPropose c config world { engine with queue })).trace := by
    have hsettle : engine.step c config (.acquire world) =
        settle .proceedConsensus (Task.run c config world .proceedConsensus { engine with queue }) := by
      rcases engine with ⟨⟩
      cases hholder
      cases hqueue
      rfl
    rw [hsettle, trace_settle, hrun]
  rcases @doPropose_cases c config { engine with queue } world proposal hproposal with
    ⟨-, hdo⟩ | ⟨hnot, -⟩
  · rcases @trace_sendPrevoteMessage c config { engine with queue }
        (some (proposal.proposal.block.hash c)) with ⟨hnot, -⟩ | ⟨-, msg, hhash, happend⟩
    · exact absurd hcan hnot
    -- all that the step emits is the prevote for the block
    · have hadded : added c config engine (.acquire world) = [.gossip (.prevote msg)] := by
        rw [added, htrace, hdo, final_sendPrevoteMessage_bind, happend]
        exact List.drop_left
      obtain ⟨world', proposal', hworld, hproposal', -, hvalid⟩ :=
        hvalidated rfl msg (by simp [hadded]) (by rw [hhash]; exact hne)
      obtain rfl : world = world' := Event.acquire.inj hworld
      obtain rfl : proposal = proposal' := Option.some.inj (hproposal.symm.trans hproposal')
      exact hvalid
  · exact absurd hallows hnot

end Steps

/-- In a run of an engine, every prevote that the node makes for a block is for a valid block, exactly
if every proposal is valid that the node comes to prevote for. -/
theorem prevotes_validated_iff (c : Crypto) (config : Config) (initialValidatorSet : ValidatorSet)
    (events : List Event) :
    (∀ before event after, events = before ++ event :: after →
      PrevotesValidated c config ((Engine.new c initialValidatorSet).run c config before) event) ↔
    ∀ before event after, events = before ++ event :: after →
      ProposalChecked c config ((Engine.new c initialValidatorSet).run c config before) event := by
  constructor
  · intro hvalidated before event after hevents
    exact (hvalidated before event after hevents).proposalChecked
  · intro hchecked before event after hevents
    exact (hchecked before event after hevents).prevotesValidated

section Sample

/-- The first of three validators. -/
def firstOfThree : Config := ⟨sampleGenesis, some (Consensus.sampleKey 1), 1000⟩

/-- A block of height 7, proposed for height 1. -/
def misplacedBlock : Block :=
  { sampleGenesis with header := { sampleGenesis.header with
      height := 7
      height_lt := BlockHeader.seven_lt } }

/-- The third validator, whose turn it is, proposes the block. -/
def misplacedProposal : Result ProposalMessage :=
  ConsensusMessage.signProposal .transparent ⟨1, 1, 0, misplacedBlock⟩
    (firstOfThree.genesisHash .transparent) (Consensus.sampleKey 3)

/-- The first validator has the proposal and is about to run `doPropose`. -/
def beforeDoPropose : Engine :=
  (Engine.new .transparent Consensus.sampleValidatorSet).run .transparent firstOfThree
    ([.setNewHeight 1 Hash.zero Consensus.sampleValidatorSet Hash.zero Hash.zero,
      .acquire Nodes.sampleWorld, .start] ++
    misplacedProposal.toOption.toList.map (fun msg => .newConsensusMessage (.proposal msg)) ++
    [.loop, .acquire Nodes.sampleWorld, .loop])

theorem added_beforeDoPropose :
    (added .transparent firstOfThree beforeDoPropose (.acquire Nodes.sampleWorld)).any (fun
      | .gossip (.prevote msg) => msg.vote.blockHash = misplacedBlock.hash .transparent
      | _ => false) = true := by
  decide +kernel

/-- The first validator prevotes for the block, which it would have found invalid. -/
theorem prevotes_misplacedBlock :
    (∃ msg : PrevoteMessage,
      .gossip (.prevote msg) ∈
        added .transparent firstOfThree beforeDoPropose (.acquire Nodes.sampleWorld) ∧
      msg.vote.blockHash = misplacedBlock.hash .transparent ∧ msg.vote.blockHash ≠ Hash.zero) ∧
    validateBlock .transparent firstOfThree Nodes.sampleWorld beforeDoPropose.state misplacedBlock =
      false ∧
    ¬ PrevotesValidated .transparent firstOfThree beforeDoPropose (.acquire Nodes.sampleWorld) := by
  have hproposal : beforeDoPropose.state.currentRoundState.proposal.map
      (fun msg => msg.proposal.block) = some misplacedBlock := by decide +kernel
  have hinvalid : validateBlock .transparent firstOfThree Nodes.sampleWorld beforeDoPropose.state
      misplacedBlock = false := by decide +kernel
  rcases List.any_eq_true.mp added_beforeDoPropose with ⟨effect, hmem, hprevote⟩
  split at hprevote
  · rename_i msg
    have hhash : msg.vote.blockHash = misplacedBlock.hash .transparent := of_decide_eq_true hprevote
    have hne : msg.vote.blockHash ≠ Hash.zero := by
      rw [hhash]
      exact Crypto.transparent_fromData_ne_zero _
    refine ⟨⟨msg, hmem, hhash, hne⟩, hinvalid, ?_⟩
    intro hvalidated
    rcases hvalidated rfl msg hmem hne with ⟨world, proposal, hworld, hcurrent, -, hvalid⟩
    cases hworld
    rw [hcurrent, Option.map_some] at hproposal
    rw [Option.some.inj hproposal, hinvalid] at hvalid
    cases hvalid
  · cases hprevote

end Sample

end ChainCore
end UniqysKit
