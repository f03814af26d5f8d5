import UniqysKit.ChainCore.EngineChanges
import UniqysKit.ChainCore.ProposalValidity
import UniqysKit.Library.Runs

/-!
# The certificates of committed blocks

`commitBlock` makes a certificate of the recorded precommits for the block.  `VoteSet.add` records a
precommit before it finds that its signer has no power, so precommits of strangers get into
certificates, and `Consensus.validate` rejects these.  `certificates_accepted_iff` says that nothing
else is wrong with them: in every run, the numbers of a vote set and its majority are those of the
recorded votes (`Tallied`).
-/

namespace UniqysKit
namespace ChainCore

open Library Engine

section Definitions

variable (c : Crypto) (config : Config)

/-- The votes of every round are counted, and a majority is for a vote of the height and its
round. -/
structure Tallied (genesis : Hash) (state : State) : Prop where
  counted : ∀ type round, ((state.roundStateOf round).votes type).Counted c genesis state.height
    state.validatorSet round
  majority : ∀ type round vote,
    ((state.roundStateOf round).votes type).twoThirdsMajority = some vote →
      vote.height = state.height ∧ vote.round = round

/-- The certificates that come with blocks which the event commits are valid for the validator set of
the height. -/
def CertificatesAccepted (engine : Engine) (event : Event) : Prop :=
  ∀ height block consensus, .commitBlock height block consensus ∈ added c config engine event →
    consensus.validate c (block.hash c) (config.genesisHash c) engine.state.validatorSet = .ok ()

/-- Where the event commits a block, no precommit for it of an address without power is recorded. -/
def NoStrangers (engine : Engine) (event : Event) : Prop :=
  ∀ vote block, CommitsAt c engine event vote block →
    ∀ entry ∈ engine.state.currentRoundState.precommit.messageOfValidator,
      entry.2.vote.blockHash = vote.blockHash → 0 < engine.state.validatorSet.weight entry.1

end Definitions

section Tallied

variable {c : Crypto} {config : Config} {genesis : Hash} {state state' : State}

/-- The state has the same votes, of the same height. -/
theorem Tallied.congr (htallied : Tallied c genesis state) (hheight : state'.height = state.height)
    (hvalidatorSet : state'.validatorSet = state.validatorSet)
    (hvotes : ∀ type round,
      (state'.roundStateOf round).votes type = (state.roundStateOf round).votes type) :
    Tallied c genesis state' := by
  refine ⟨?_, ?_⟩
  · intro type round
    rw [hvotes, hheight, hvalidatorSet]
    exact htallied.counted type round
  · intro type round vote hvote
    rw [hvotes] at hvote
    rw [hheight]
    exact htallied.majority type round vote hvote

/-- Nothing was voted on yet. -/
theorem tallied_of_none (hnone : state.roundState = fun _ => none) : Tallied c genesis state := by
  have hvotes : ∀ type round,
      (state.roundStateOf round).votes type = VoteSet.new state.validatorSet := by
    intro type round
    rw [State.roundStateOf, hnone]
    cases type with
    | prevote => rfl
    | precommit => rfl
  refine ⟨?_, ?_⟩
  · intro type round
    rw [hvotes]
    exact VoteSet.counted_new type round
  · intro type round vote hvote
    rw [hvotes] at hvote
    cases hvote

/-- One vote set is replaced. -/
theorem Tallied.setVotes (htallied : Tallied c genesis state) {round : Nat} {type : VoteType}
    {set : VoteSet type} (hcounted : set.Counted c genesis state.height state.validatorSet round)
    (hmajority : ∀ vote, set.twoThirdsMajority = some vote →
      vote.height = state.height ∧ vote.round = round) :
    Tallied c genesis (state.setRoundState round
      ((state.roundStateOf round).setVotes type set)) := by
  refine ⟨?_, ?_⟩
  · intro type' round'
    rcases state.votes_setVotes round type set type' round' with ⟨rfl, rfl⟩ | hsame
    · rw [State.roundStateOf_setRoundState, RoundState.votes_setVotes]
      exact hcounted
    · rw [hsame]
      exact htallied.counted type' round'
  · intro type' round' vote hvote
    rcases state.votes_setVotes round type set type' round' with ⟨rfl, rfl⟩ | hsame
    · rw [State.roundStateOf_setRoundState, RoundState.votes_setVotes] at hvote
      exact hmajority vote hvote
    · rw [hsame] at hvote
      exact htallied.majority type' round' vote hvote

/-- Every change of the engine keeps the count. -/
theorem Tallied.change {engine engine' : Engine}
    (htallied : Tallied c (config.genesisHash c) engine.state)
    (hchange : Change c config engine engine') :
    Tallied c (config.genesisHash c) engine'.state := by
  cases hchange with
  | idle hstate _ =>
      rw [hstate]
      exact htallied
  | proposal _ _ _ _ hstate _ =>
      rw [hstate]
      exact htallied.congr rfl rfl (engine.state.votes_setProposal _ _)
  | @stranger type msg address e hheight hsigner hhas hpower hstate _ =>
      have hcounted := htallied.counted type msg.vote.round
      -- a stranger adds a message and no power
      have hweight : engine.state.validatorSet.weight address = 0 := by
        rw [hcounted.validatorSet] at hpower
        simp [ValidatorSet.weight, hpower]
      rw [hstate]
      refine htallied.setVotes (hcounted.record hhas hsigner hheight rfl hweight) ?_
      exact htallied.majority type msg.vote.round
  | @vote type msg address power hheight hsigner hhas hpower hstate _ =>
      have hcounted := htallied.counted type msg.vote.round
      rw [hcounted.validatorSet] at hpower
      have hweight : power = engine.state.validatorSet.weight address :=
        (ValidatorSet.weight_of_powerOf hpower).symm
      rw [hstate, hweight]
      refine htallied.setVotes (hcounted.count hhas hsigner hheight rfl) ?_
      intro vote hvote
      simp only [VoteSet.count] at hvote
      -- the majority is the one that this vote makes, or it was there before
      split at hvote
      · cases hvote
        exact ⟨hheight, rfl⟩
      · exact htallied.majority type msg.vote.round vote hvote
  | setStep hstate _ =>
      rw [hstate]
      exact htallied.congr rfl rfl fun _ _ => rfl
  | lock _ _ hstate _ =>
      rw [hstate]
      exact htallied.congr rfl rfl fun _ _ => rfl
  | validBlock _ _ _ hstate _ =>
      rw [hstate]
      exact htallied.congr rfl rfl fun _ _ => rfl
  | newRound _ hstate _ =>
      rw [hstate]
      exact htallied.congr rfl rfl fun _ _ => rfl
  | newHeight hstate _ =>
      rw [hstate]
      exact tallied_of_none rfl

theorem Tallied.step {engine : Engine} (htallied : Tallied c (config.genesisHash c) engine.state)
    (event : Event) : Tallied c (config.genesisHash c) (engine.step c config event).state := by
  refine step_keeps (P := fun state _ => Tallied c (config.genesisHash c) state) event htallied ?_ ?_
  · intro _ _ hchange hbefore
    exact hbefore.change hchange
  · intro vote block
    exact htallied.congr rfl rfl fun _ _ => rfl

end Tallied

/-! ## What gets into a certificate -/

section Certificates

variable {c : Crypto} {config : Config} {genesis : Hash} {state : State}

/-- The recorded votes for a block hash. -/
def VoteSet.votesFor {type : VoteType} (set : VoteSet type) (blockHash : Hash) :
    List (Address × VoteMessage type) :=
  set.messageOfValidator.filter fun entry => entry.2.vote.blockHash = blockHash

/-- A certificate is attributed to those whose votes were recorded. -/
theorem VoteSet.Counted.signer_certificate {set : VoteSet .precommit} {height round : Nat}
    {vs : ValidatorSet} (hcounted : set.Counted c genesis height vs round) {vote : Vote}
    (hheight : vote.height = height) (hround : vote.round = round) {entry}
    (hentry : entry ∈ set.votesFor vote.blockHash) :
    (⟨vote, set.signatures vote.blockHash⟩ : Consensus).signer c genesis entry.2.sign =
      .ok entry.1 := by
  rcases List.mem_filter.mp hentry with ⟨hmem, hhash⟩
  rcases hcounted.signed entry hmem with ⟨hsigner, hheight', hround'⟩
  have hvote : entry.2.vote = vote := by
    rcases entry with ⟨address, ⟨⟨height', round', blockHash'⟩, sign⟩⟩
    rcases vote with ⟨height, round, blockHash⟩
    have hhash' : blockHash' = blockHash := by simpa using hhash
    simp only at hheight hround hheight' hround' ⊢
    rw [hheight, hround, hheight', hround', hhash']
  rw [← hsigner]
  unfold Consensus.signer
  rw [← hvote]

theorem VoteSet.Counted.signers_certificate {set : VoteSet .precommit} {height round : Nat}
    {vs : ValidatorSet} (hcounted : set.Counted c genesis height vs round) {vote : Vote}
    (hheight : vote.height = height) (hround : vote.round = round) :
    (⟨vote, set.signatures vote.blockHash⟩ : Consensus).signers c genesis =
      (set.votesFor vote.blockHash).map Prod.fst := by
  have hsigner := fun entry => @VoteSet.Counted.signer_certificate c genesis set height round vs
    hcounted vote hheight hround entry
  change List.filterMap _ ((set.votesFor vote.blockHash).map fun entry => entry.2.sign) = _
  rw [List.filterMap_map, ← List.filterMap_eq_map]
  refine List.filterMap_congr ?_
  intro entry hentry
  simp only [Function.comp_apply, hsigner entry hentry]
  rfl

/-- The certificate of a majority is accepted exactly if all its votes are of addresses with
power. -/
theorem Tallied.validate_iff (htallied : Tallied c genesis state) {vote : Vote} {block : Block}
    (hmajority : state.currentRoundState.precommit.twoThirdsMajority = some vote)
    (hblock : state.currentRoundState.proposedBlock c vote.blockHash = some block) :
    (⟨vote, state.currentRoundState.precommit.signatures vote.blockHash⟩ : Consensus).validate c
        (block.hash c) genesis state.validatorSet = .ok () ↔
      ∀ entry ∈ state.currentRoundState.precommit.messageOfValidator,
        entry.2.vote.blockHash = vote.blockHash → 0 < state.validatorSet.weight entry.1 := by
  have hcounted := htallied.counted .precommit state.round
  rcases htallied.majority .precommit state.round vote hmajority with ⟨hheight, hround⟩
  change state.currentRoundState.precommit.Counted c genesis state.height state.validatorSet
    state.round at hcounted
  generalize state.currentRoundState.precommit = precommit at hcounted hmajority ⊢
  have hhash : vote.blockHash = block.hash c := by
    unfold RoundState.proposedBlock at hblock
    split at hblock
    · split at hblock
      · rename_i heq
        rw [heq, Option.some.inj hblock]
      · cases hblock
    · cases hblock
  have hsigner := fun entry => @VoteSet.Counted.signer_certificate c genesis precommit state.height
    state.round state.validatorSet hcounted vote hheight hround entry
  -- strangers do not count, so the power is that of the majority
  have hpower : state.validatorSet.Passes (Doubles.sum
      (((⟨vote, precommit.signatures vote.blockHash⟩ : Consensus).signers c genesis).map
        state.validatorSet.weight)) := by
    have hmajority := hcounted.majority vote hmajority
    rw [hcounted.power] at hmajority
    rw [hcounted.signers_certificate hheight hround, List.map_map]
    exact hmajority
  rw [Consensus.validate_eq_ok_iff]
  constructor
  · rintro ⟨-, hall, -⟩ entry hmem heq
    have hentry : entry ∈ precommit.votesFor vote.blockHash :=
      List.mem_filter.mpr ⟨hmem, by simpa using heq⟩
    obtain ⟨address, haddress, hweight⟩ := hall entry.2.sign
      (List.mem_map.mpr ⟨entry, hentry, rfl⟩)
    rw [hsigner entry hentry] at haddress
    rwa [Except.ok.inj haddress]
  · intro hall
    refine ⟨hhash, ?_, hpower⟩
    intro sign hsign
    rcases List.mem_map.mp hsign with ⟨entry, hentry, rfl⟩
    rcases List.mem_filter.mp hentry with ⟨hmem, heq⟩
    exact ⟨entry.1, hsigner entry hentry, hall entry hmem (by simpa using heq)⟩

end Certificates

/-! ## Runs -/

section Runs

variable {c : Crypto} {config : Config} {engine : Engine}

/-- No change of the engine commits a block. -/
theorem trace_walks {engine' : Engine} (hwalks : (walks c config).rel engine engine') :
    ∃ effects, engine'.trace = engine.trace ++ effects ∧
      ∀ height block consensus, .commitBlock height block consensus ∉ effects := by
  change Relation.ReflTransGen (Change c config) engine engine' at hwalks
  induction hwalks with
  | refl => exact ⟨[], by simp, nofun⟩
  | @tail engine₁ engine₂ _ hchange ih =>
      rcases ih with ⟨effects, htrace, hnone⟩
      -- a change emits nothing, or one effect that is no commit
      have hsame : engine₂.trace = engine₁.trace →
          ∃ effects, engine₂.trace = engine.trace ++ effects ∧
            ∀ height block consensus, .commitBlock height block consensus ∉ effects :=
        fun h => ⟨effects, h.trans htrace, hnone⟩
      have hmore : ∀ effect, engine₂.trace = engine₁.trace ++ [effect] →
          (∀ height block consensus, effect ≠ .commitBlock height block consensus) →
          ∃ effects, engine₂.trace = engine.trace ++ effects ∧
            ∀ height block consensus, .commitBlock height block consensus ∉ effects := by
        intro effect h hne
        refine ⟨effects ++ [effect], by rw [h, htrace, List.append_assoc], ?_⟩
        intro height block consensus hmem
        rcases List.mem_append.mp hmem with hold | hnew
        · exact hnone height block consensus hold
        · exact hne height block consensus (List.mem_singleton.mp hnew).symm
      cases hchange with
      | idle _ h => exact hsame h
      | proposal _ _ _ _ _ h => exact hmore _ h nofun
      | stranger _ _ _ _ _ h => exact hsame h
      | vote _ _ _ _ _ h => exact hmore _ h nofun
      | setStep _ h => exact hsame h
      | lock _ _ _ h => exact hsame h
      | validBlock _ _ _ _ h => exact hsame h
      | newRound _ _ h => exact hsame h
      | newHeight _ h => exact hmore _ h nofun

/-- What an event commits is the block of the majority, with its certificate. -/
theorem committed_iff {event : Event} {height : Nat} {block : Block} {consensus : Consensus} :
    .commitBlock height block consensus ∈ added c config engine event ↔
      ∃ vote, CommitsAt c engine event vote block ∧ height = engine.state.height ∧
        consensus = ⟨vote, engine.state.currentRoundState.precommit.signatures vote.blockHash⟩ := by
  rcases @step_walks c config engine event with
    ⟨vote, block', hcommits, -, htrace⟩ | ⟨hnone, hwalks⟩
  · have hadded : added c config engine event = [.commitBlock engine.state.height block'
        ⟨vote, engine.state.currentRoundState.precommit.signatures vote.blockHash⟩] := by
      rw [added, htrace]
      exact List.drop_left
    rw [hadded, List.mem_singleton, Effect.commitBlock.injEq]
    constructor
    · rintro ⟨rfl, rfl, rfl⟩
      exact ⟨vote, hcommits, rfl, rfl⟩
    · rintro ⟨vote', hcommits', rfl, rfl⟩
      -- the majority and the block that is proposed for it determine each other
      have hvote := hcommits.majority
      rw [hcommits'.majority] at hvote
      cases hvote
      have hblock := hcommits.block
      rw [hcommits'.block] at hblock
      cases hblock
      exact ⟨rfl, rfl, rfl⟩
  · rcases trace_walks hwalks with ⟨effects, htrace, hno⟩
    rw [added, htrace, List.drop_left]
    constructor
    · intro hmem
      exact absurd hmem (hno height block consensus)
    · rintro ⟨vote, hcommits, -⟩
      exact absurd hcommits (hnone vote block)

/-- Where the votes are counted, the certificates of an event are accepted exactly if no stranger has
got into them. -/
theorem Tallied.accepted_iff (htallied : Tallied c (config.genesisHash c) engine.state)
    (event : Event) :
    CertificatesAccepted c config engine event ↔ NoStrangers c engine event := by
  constructor
  · intro haccepted vote block hcommits
    have hmem := (@committed_iff c config engine event _ block _).mpr ⟨vote, hcommits, rfl, rfl⟩
    exact (htallied.validate_iff hcommits.majority hcommits.block).mp
      (haccepted _ block _ hmem)
  · intro hno height block consensus hmem
    rcases committed_iff.mp hmem with ⟨vote, hcommits, -, rfl⟩
    exact (htallied.validate_iff hcommits.majority hcommits.block).mpr
      (hno vote block hcommits)

/-- In every run of an engine, the certificates of the blocks it commits are accepted exactly if no
precommit of a stranger is recorded for them when they are committed. -/
theorem certificates_accepted_iff (c : Crypto) (config : Config) (initialValidatorSet : ValidatorSet)
    (events : List Event) :
    Along (Engine.step c config) (Engine.new c initialValidatorSet) events
        (CertificatesAccepted c config) ↔
      Along (Engine.step c config) (Engine.new c initialValidatorSet) events (NoStrangers c) := by
  have htallied : Throughout (Engine.step c config) (Engine.new c initialValidatorSet) events
      (fun engine => Tallied c (config.genesisHash c) engine.state) := by
    have hinit : Tallied c (config.genesisHash c) (Engine.new c initialValidatorSet).state :=
      tallied_of_none rfl
    exact @throughout _ _ (Engine.step c config) _
      (fun engine => Tallied c (config.genesisHash c) engine.state) hinit
      (fun engine event h => h.step event) events
  constructor
  · intro haccepted
    exact htallied.along haccepted fun engine event h => (h.accepted_iff event).mp
  · intro hno
    exact htallied.along hno fun engine event h => (h.accepted_iff event).mpr

end Runs

section Sample

open Nodes

/-- A stranger precommits to the genesis block. -/
def strangerPrecommit : Result PrecommitMessage :=
  ConsensusMessage.signVote .transparent .precommit ⟨1, 1, sampleGenesis.hash .transparent⟩
    (sampleGenesis.hash .transparent) (Consensus.sampleKey 9)

/-- The observer has got the stranger's precommit and the messages of the validator, and is about to
commit. -/
def beforeCommit : Engine :=
  (Engine.new .transparent soleValidatorSet).run .transparent (validatorAndObserver.config false)
    (enterFirstHeight ++
      strangerPrecommit.toOption.toList.map (fun msg => .newConsensusMessage (.precommit msg)) ++
      validatorMessages.map .newConsensusMessage ++ proceed 3 ++ proceed 0 ++ [.resume .done] ++
      proceed 0 ++ [.resume .done, .loop])

theorem commits_with_stranger :
    (∃ height block consensus, .commitBlock height block consensus ∈
        added .transparent (validatorAndObserver.config false) beforeCommit (.acquire sampleWorld) ∧
      consensus.validate .transparent (block.hash .transparent) (sampleGenesis.hash .transparent)
        beforeCommit.state.validatorSet ≠ .ok ()) ∧
    ¬ CertificatesAccepted .transparent (validatorAndObserver.config false) beforeCommit
      (.acquire sampleWorld) := by
  have hany : ((added .transparent (validatorAndObserver.config false) beforeCommit
      (.acquire sampleWorld)).any fun
        | .commitBlock _ block consensus => decide (consensus.validate .transparent
            (block.hash .transparent) (sampleGenesis.hash .transparent)
            beforeCommit.state.validatorSet ≠ .ok ())
        | _ => false) = true := by decide +kernel
  rcases List.any_eq_true.mp hany with ⟨effect, hmem, hinvalid⟩
  split at hinvalid
  · rename_i height block consensus
    have hne := of_decide_eq_true hinvalid
    refine ⟨⟨height, block, consensus, hmem, hne⟩, ?_⟩
    intro haccepted
    exact hne (haccepted height block consensus hmem)
  · cases hinvalid

end Sample

end ChainCore
end UniqysKit
