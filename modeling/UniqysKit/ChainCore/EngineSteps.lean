import UniqysKit.ChainCore.EngineInvariant

/-!
# Every event keeps the invariant

First a rule for each function that handles or sends a message: to show something of the engine
after the call, show it for each way the call can end.  Then the tasks and their continuations, and
from these `Invariant.step`: an event keeps the invariant, if the message it brings is genuine.
-/

namespace UniqysKit
namespace ChainCore

open Library Engine

variable {c : Crypto} {config : Config} {engine : Engine}

/-! ## Rules for the handlers -/

section Handlers

variable {P : Engine → Prop}

/-- The engine with one more recorded vote. -/
def recordVote {type : VoteType} (engine : Engine) (msg : VoteMessage type) (set : VoteSet type) :
    Engine :=
  { engine with
    state := engine.state.setRoundState msg.vote.round
      ((engine.state.roundStateOf msg.vote.round).setVotes type set) }

/-- A vote of another height, without a signer or of a signer that has voted is dropped. Others are
recorded, and then passed on if the signer has power. -/
theorem ends_handleVote {type : VoteType} {msg : VoteMessage type} {check : Action Engine Unit}
    (hdrop : (msg.vote.height = engine.state.height → ∀ address,
        msg.signerAddress c (config.genesisHash c) = .ok address →
        ((engine.state.roundStateOf msg.vote.round).votes type).has address = true) → P engine)
    (hrecord : ∀ address e, msg.vote.height = engine.state.height →
      msg.signerAddress c (config.genesisHash c) = .ok address →
      ¬ ((engine.state.roundStateOf msg.vote.round).votes type).has address = true →
      ((engine.state.roundStateOf msg.vote.round).votes type).validatorSet.powerOf address =
        .error e →
      P (recordVote engine msg
        (((engine.state.roundStateOf msg.vote.round).votes type).record address msg)))
    (hcheck : ∀ address power, msg.vote.height = engine.state.height →
      msg.signerAddress c (config.genesisHash c) = .ok address →
      ¬ ((engine.state.roundStateOf msg.vote.round).votes type).has address = true →
      ((engine.state.roundStateOf msg.vote.round).votes type).validatorSet.powerOf address =
        .ok power →
      Fallible.Ends check
        { recordVote engine msg
            ((((engine.state.roundStateOf msg.vote.round).votes type).record address msg).count
              power msg.vote) with
          trace := engine.trace ++ [.gossip (voteMessage msg)]
          queue := engine.queue ++ [.checkRoundSkip msg.vote.height msg.vote.round type] }
        (fun _ => P) P) :
    Fallible.Ends (handleVote c config msg check) engine (fun _ => P) P := by
  unfold handleVote
  rw [Fallible.ends_bind, Fallible.ends_get]
  simp only
  split
  · rename_i hheight
    -- another height
    exact hdrop fun heq => absurd heq hheight
  · rename_i hheight
    rw [Fallible.ends_bind]
    refine Action.ends_fromResult ?_ ?_
    -- the signature does not give an address
    on_goal 2 =>
      intro e hsigner
      refine hdrop fun _ address haddress => ?_
      rw [hsigner] at haddress
      cases haddress
    intro address hsigner
    split
    · rename_i hhas
      refine hdrop fun _ address' haddress => ?_
      obtain rfl : address = address' := Except.ok.inj (hsigner.symm.trans haddress)
      exact hhas
    · rename_i hhas
      have hheight' := not_ne_iff.mp hheight
      -- `VoteSet.add` records the message and then may throw
      rw [Fallible.ends_bind, Fallible.Ends, addVote]
      simp only [VoteSet.add_eq msg hhas]
      cases hpower : ((engine.state.roundStateOf msg.vote.round).votes type).validatorSet.powerOf
          address with
      | ok power =>
          simp only [gossip, emit, checkRoundSkip, useLock, Fallible.ends_bind, Fallible.ends_modify]
          exact hcheck address power hheight' hsigner hhas hpower
      | error e => exact hrecord address e hheight' hsigner hhas hpower

/-- A proposal is dropped, or recorded and passed on. -/
theorem ends_handleProposal {msg : ProposalMessage} (hdrop : P engine)
    (hrecord : msg.proposal.height = engine.state.height → engine.state.round ≤ msg.proposal.round →
      (engine.state.roundStateOf msg.proposal.round).proposal = none →
      (msg.proposal.lockedRound = 0 ∨ msg.proposal.lockedRound < msg.proposal.round) →
      P { engine with
          state := engine.state.setRoundState msg.proposal.round
            { engine.state.roundStateOf msg.proposal.round with proposal := some msg }
          trace := engine.trace ++ [.gossip (.proposal msg)] }) :
    Fallible.Ends (handleProposal c config msg) engine (fun _ => P) P := by
  unfold handleProposal
  rw [Fallible.ends_bind, Fallible.ends_get]
  simp only
  split
  · exact hdrop
  · rename_i hheight
    split
    · exact hdrop
    · rename_i hknown
      split
      · exact hdrop
      · rename_i hlocked
        -- the proposer and the signer are computed, and either may throw
        rw [Fallible.ends_bind]
        refine Action.ends_fromResult ?_ fun _ _ => hdrop
        intro proposer hproposer
        rw [Fallible.ends_bind]
        refine Action.ends_fromResult ?_ fun _ _ => hdrop
        intro signer hsigner
        split
        · exact hdrop
        · simp only [modifyState, gossip, emit, Fallible.ends_bind, Fallible.ends_modify]
          have hnone := Option.not_isSome_iff_eq_none.mp hknown
          exact hrecord (by omega) (by omega) hnone (by omega)

/-- The node can sign votes in its round. -/
def CanSign (c : Crypto) (config : Config) (engine : Engine) : Prop :=
  isValidator c config engine = true ∧ engine.state.height < 2 ^ 48 ∧ engine.state.round < 2 ^ 32

/-- A vote is signed and handled, if the node is a validator and the vote can be serialized. -/
theorem ends_sendVote {type : VoteType} {handle : VoteMessage type → Action Engine Unit}
    {blockHash : Option Hash} (hnone : ¬ CanSign c config engine → P engine)
    (hsend : ∀ address msg, CanSign c config engine → address ∈ config.address c →
      msg.signerAddress c (config.genesisHash c) = .ok address →
      msg.vote = ⟨engine.state.height, engine.state.round, blockHash.getD Hash.zero⟩ →
      Fallible.Ends (handle msg) engine (fun _ => P) P) :
    Fallible.Ends (sendVote c config type handle blockHash) engine (fun _ => P) P := by
  unfold sendVote
  rw [Fallible.ends_bind, Fallible.ends_get]
  cases hkey : config.keyPair with
  | none =>
      refine hnone ?_
      rintro ⟨hvalidator, -⟩
      simp [isValidator, Config.address, hkey] at hvalidator
  | some keyPair =>
      simp only
      split
      · rename_i hvalidator
        exact hnone fun hcan => hvalidator hcan.1
      · rename_i hvalidator
        rw [Fallible.ends_bind]
        refine Action.ends_fromResult ?_ ?_
        · intro msg hmsg
          rcases ConsensusMessage.signVote_eq_ok hmsg with ⟨hvote, hsigner⟩
          -- the vote is signed with the own key
          refine hsend (keyPair.address c) msg ⟨not_not.mp hvalidator, ?_⟩ ?_ hsigner hvote
          · exact ConsensusMessage.signVote_isOk_iff.mp ⟨msg, hmsg⟩
          · simp [Config.address, hkey]
        · intro e hmsg
          refine hnone ?_
          rintro ⟨-, hrange⟩
          have hok : ∃ msg, ConsensusMessage.signVote c type ⟨engine.state.height, engine.state.round,
              blockHash.getD Hash.zero⟩ (config.genesisHash c) keyPair = .ok msg :=
            ConsensusMessage.signVote_isOk_iff.mpr hrange
          rw [hmsg] at hok
          rcases hok with ⟨msg, hok⟩
          cases hok

theorem ends_propose {block : Block} (hnone : P engine)
    (hhandle : ∀ msg, Fallible.Ends (handleProposal c config msg) engine (fun _ => P) P) :
    Fallible.Ends (propose c config block) engine (fun _ => P) P := by
  unfold propose
  rw [Fallible.ends_bind, Fallible.ends_get]
  cases config.keyPair with
  | none => exact hnone
  | some keyPair =>
      simp only
      rw [Fallible.ends_bind]
      refine Action.ends_fromResult ?_ fun _ _ => hnone
      intro msg hmsg
      exact hhandle msg

end Handlers

/-! ## Handling messages -/

section Invariants

variable (c config) (h : Nat) (vs : ValidatorSet)

/-- The invariant of an engine. -/
def Engine.Inv (engine : Engine) : Prop :=
  Invariant c (config.genesisHash c) h vs (config.address c) engine.state engine.trace engine.holder

/-- The invariant holds again, and the engine is where it was. -/
structure Kept (engine engine' : Engine) : Prop where
  inv : engine'.Inv c config h vs
  height : engine'.state.height = engine.state.height
  round : engine'.state.round = engine.state.round
  step : engine'.state.step = engine.state.step
  lockedRound : engine'.state.lockedRound = engine.state.lockedRound
  holder : engine'.holder = engine.holder

variable {c config h vs}

theorem Engine.Inv.kept (hinv : engine.Inv c config h vs) : Kept c config h vs engine engine :=
  ⟨hinv, rfl, rfl, rfl, rfl, rfl⟩

theorem entered_append_gossip (trace : List Effect) (msg : ConsensusMessage) :
    entered h (trace ++ [.gossip msg]) = entered h trace := by
  simp [entered]

theorem elsewhere_voteMessage {type : VoteType} {msg : VoteMessage type}
    (hheight : msg.vote.height ≠ h) : (Effect.gossip (voteMessage msg)).Elsewhere h := by
  cases type with
  | prevote => exact hheight
  | precommit => exact hheight

/-- Effects of other heights, and proposals, keep the invariant. -/
theorem Engine.Inv.gossip_elsewhere (hinv : engine.Inv c config h vs) {msg : ConsensusMessage}
    (helse : (Effect.gossip msg).Elsewhere h) :
    ({ engine with trace := engine.trace ++ [.gossip msg] } : Engine).Inv c config h vs := by
  have hcast : ∀ type a round b,
      Cast c (config.genesisHash c) (engine.trace ++ [.gossip msg]) type a ⟨h, round, b⟩ →
        Cast c (config.genesisHash c) engine.trace type a ⟨h, round, b⟩ :=
    fun _ _ _ _ => cast_append_elsewhere helse
  refine ⟨hinv.rules.append_elsewhere helse, ?_, ?_, hinv.held⟩
  · intro hentered
    rw [entered_append_gossip] at hentered
    rcases hinv.before hentered with ⟨hheight, hnone⟩
    exact ⟨hheight, fun type a round b hb => hnone type a round b (hcast _ _ _ _ hb)⟩
  · intro hh
    exact (hinv.current hh).mono (List.subset_append_left _ _) hcast

/-- Code that only queues tasks. -/
def Silent (x : Action Engine Unit) : Prop :=
  ∀ engine', Fallible.Ends x engine' (fun _ engine'' => engine''.state = engine'.state ∧
    engine''.trace = engine'.trace ∧ engine''.holder = engine'.holder) fun _ => False

theorem silent_checkValidBlock (height round : Nat) : Silent (checkValidBlock height round) :=
  fun _ => ⟨rfl, rfl, rfl⟩

theorem silent_pure : Silent (pure ()) := fun _ => ⟨rfl, rfl, rfl⟩

/-- Handling a vote, where an own vote keeps to its rule. -/
theorem Engine.Inv.handleVote (hinv : engine.Inv c config h vs) {type : VoteType}
    {msg : VoteMessage type} {check : Action Engine Unit} (hcheck : Silent check)
    (hown : ∀ address ∈ config.address c, msg.signerAddress c (config.genesisHash c) = .ok address →
      0 < vs.weight address → engine.state.height = h → msg.vote.height = engine.state.height →
      ¬ ((engine.state.roundStateOf msg.vote.round).votes type).has address = true →
      OwnVote c (config.genesisHash c) h vs engine.state engine.trace type msg.vote) :
    Fallible.Ends (ChainCore.handleVote c config msg check) engine
      (fun _ => Kept c config h vs engine) (Kept c config h vs engine) := by
  refine ends_handleVote (fun _ => hinv.kept) ?_ ?_
  · -- the signer has no power, and nothing is passed on
    intro address e hheight hsigner hhas hpower
    refine ⟨⟨hinv.rules, hinv.before, ?_, hinv.held⟩, rfl, rfl, rfl, rfl, rfl⟩
    intro hh
    have hcurrent := hinv.current hh
    have hcounted := hcurrent.counted type msg.vote.round
    have hweight : vs.weight address = 0 := by
      rw [hcounted.validatorSet] at hpower
      simp [ValidatorSet.weight, hpower]
    refine hcurrent.record hsigner (hheight.trans hh) rfl ?_ (List.Subset.refl _) ?_ ?_ ?_
    · exact hcounted.record hhas hsigner (hheight.trans hh) rfl hweight
    · intro type' a vote hcast
      exact .inl hcast
    · intro hpos
      omega
    · intro _ hpos
      omega
  · intro address power hheight hsigner hhas hpower
    refine (hcheck _).mono ?_ fun _ => False.elim
    rintro _ engine' ⟨hstate, htrace, hholder⟩
    -- the check after the vote is silent, so only the vote itself is to be accounted for
    refine ⟨?_, by rw [hstate]; rfl, by rw [hstate]; rfl, by rw [hstate]; rfl,
      by rw [hstate]; rfl, hholder⟩
    unfold Engine.Inv
    rw [hstate, htrace, hholder]
    by_cases hh : engine.state.height = h
    -- the vote counts for the round, and it is passed on
    · have hcurrent := hinv.current hh
      have hcounted := hcurrent.counted type msg.vote.round
      rw [hcounted.validatorSet] at hpower
      have hweight : power = vs.weight address := (ValidatorSet.weight_of_powerOf hpower).symm
      have hpos : 0 < vs.weight address := by
        rw [← hweight]
        exact (ValidatorSet.powerOf_eq_ok_iff.1 hpower).2
      have hown' : address ∈ config.address c →
          OwnVote c (config.genesisHash c) h vs engine.state engine.trace type msg.vote :=
        fun ha => hown address ha hsigner hpos hh hheight hhas
      refine ⟨?_, ?_, ?_, hinv.held⟩
      · exact hinv.rules.append_vote hcurrent hsigner hhas hown'
      · intro hentered
        rw [entered_append_gossip] at hentered
        exact absurd hh (hinv.before hentered).1
      · intro _
        refine hcurrent.record hsigner (hheight.trans hh) rfl ?_ (List.subset_append_left _ _) ?_ ?_ ?_
        · rw [hweight]
          exact hcounted.count hhas hsigner (hheight.trans hh) rfl
        · intro type' a vote hcast
          rcases cast_append_vote hcast with hold | ⟨htype, ha, hvote⟩
          · exact .inl hold
          · exact .inr ⟨htype, ha, hvote, hpos⟩
        · intro _
          exact ⟨msg, List.mem_append_right _ (List.mem_singleton.mpr rfl), hsigner, rfl⟩
        · intro ha _
          exact hown' ha
    · -- the vote is of another height
      have helse : (Effect.gossip (voteMessage msg)).Elsewhere h :=
        elsewhere_voteMessage (by rw [hheight]; exact hh)
      have hother := hinv.gossip_elsewhere helse
      exact ⟨hother.rules, hother.before, fun hh' => absurd hh' hh, fun hh' => absurd hh' hh⟩

theorem Engine.Inv.handleProposal (hinv : engine.Inv c config h vs) (msg : ProposalMessage) :
    Fallible.Ends (ChainCore.handleProposal c config msg) engine
      (fun _ => Kept c config h vs engine) (Kept c config h vs engine) := by
  refine ends_handleProposal hinv.kept ?_
  intro _ _ _ hlocked
  have hgossip := @Engine.Inv.gossip_elsewhere c config engine h vs hinv (.proposal msg) trivial
  refine ⟨⟨hgossip.rules, hgossip.before, ?_, hgossip.held⟩, rfl, rfl, rfl, rfl, rfl⟩
  intro hh
  have hcurrent := hgossip.current hh
  -- the votes of every round are as they were
  have hvotes : ∀ type round, (((engine.state.setRoundState msg.proposal.round
      { engine.state.roundStateOf msg.proposal.round with proposal := some msg }).roundStateOf
        round).votes type) = (engine.state.roundStateOf round).votes type :=
    State.votes_setProposal engine.state msg.proposal.round (some msg)
  refine ⟨hcurrent.validatorSet, ?_, ?_, ?_, ?_, hcurrent.round_pos, hcurrent.locked_le,
    hcurrent.locked_lt, hcurrent.locked_seen, hcurrent.own_round, hcurrent.own_locked⟩
  · intro type round
    rw [hvotes]
    exact hcurrent.counted type round
  · intro type a round b hb
    rw [hvotes]
    exact hcurrent.cast_recorded type a round b hb
  · intro type round entry hentry
    rw [hvotes] at hentry
    exact hcurrent.recorded_cast type round entry hentry
  · intro round msg' hmsg'
    by_cases hround : round = msg.proposal.round
    · subst hround
      rw [State.roundStateOf_setRoundState] at hmsg'
      cases hmsg'
      exact hlocked
    · rw [State.roundStateOf_setRoundState_of_ne _ hround] at hmsg'
      exact hcurrent.proposal round msg' hmsg'

/-- Sending a vote that keeps to its rule. -/
theorem Engine.Inv.sendVote (hinv : engine.Inv c config h vs) {type : VoteType}
    {check : VoteMessage type → Action Engine Unit} (hcheck : ∀ msg, Silent (check msg))
    {blockHash : Option Hash}
    (hown : engine.state.height = h → OwnVote c (config.genesisHash c) h vs engine.state
      engine.trace type ⟨h, engine.state.round, blockHash.getD Hash.zero⟩) :
    Fallible.Ends (ChainCore.sendVote c config type
        (fun msg => ChainCore.handleVote c config msg (check msg)) blockHash) engine
      (fun _ => Kept c config h vs engine) (Kept c config h vs engine) := by
  refine ends_sendVote (fun _ => hinv.kept) ?_
  intro address msg _ _ _ hvote
  refine hinv.handleVote (hcheck msg) ?_
  intro _ _ _ _ hh _ _
  rw [hvote, hh]
  exact hown hh

/-! ## Moving within a height -/

/-- Another state of the same height with the same votes and proposals. -/
theorem Current.move {genesis : Hash} {own : Option Address} {state state' : State}
    {trace : List Effect} (hcurrent : Current c genesis h vs own state trace)
    (hvalidatorSet : state'.validatorSet = state.validatorSet)
    (hroundState : state'.roundState = state.roundState) (hround : state.round ≤ state'.round)
    (hlocked : state.lockedRound ≤ state'.lockedRound) (hle : state'.lockedRound ≤ state'.round)
    (hlt : state'.step = .newRound ∨ state'.step = .propose → state'.lockedRound < state'.round)
    (hseen : ∀ block ∈ state'.lockedBlock,
      Seen c genesis h vs trace .prevote state'.lockedRound (block.hash c)) :
    Current c genesis h vs own state' trace := by
  -- the votes and proposals are the same, only round, step and lock move
  have hsame : ∀ round, state'.roundStateOf round = state.roundStateOf round := by
    intro round
    rw [State.roundStateOf, State.roundStateOf, hroundState, hvalidatorSet]
  refine ⟨hvalidatorSet.trans hcurrent.validatorSet, ?_, ?_, ?_, ?_,
    hcurrent.round_pos.trans_le hround, hle, hlt, hseen, ?_, ?_⟩
  · intro type round
    rw [hsame]
    exact hcurrent.counted type round
  · intro type a round b hb
    rw [hsame]
    exact hcurrent.cast_recorded type a round b hb
  · intro type round entry hentry
    rw [hsame] at hentry
    exact hcurrent.recorded_cast type round entry hentry
  · intro round msg hmsg
    rw [hsame] at hmsg
    exact hcurrent.proposal round msg hmsg
  · intro a ha type round b hb
    exact (hcurrent.own_round a ha type round b hb).trans hround
  · intro a ha round b hne hb
    rcases hcurrent.own_locked a ha round b hne hb with ⟨hpos, hle'⟩
    exact ⟨hpos, hle'.trans hlocked⟩

theorem Engine.Inv.setState (hinv : engine.Inv c config h vs) {state : State}
    (hheight : state.height = engine.state.height)
    (hcurrent : engine.state.height = h →
      Current c (config.genesisHash c) h vs (config.address c) state engine.trace)
    (hheld : engine.state.height = h → ∀ task await, engine.holder = some (task, await) →
      await.Ready state) :
    ({ engine with state } : Engine).Inv c config h vs := by
  refine ⟨hinv.rules, ?_, ?_, ?_⟩
  · intro hentered
    rcases hinv.before hentered with ⟨hne, hnone⟩
    exact ⟨by rw [hheight]; exact hne, hnone⟩
  · intro hh
    exact hcurrent (hheight ▸ hh)
  · intro hh
    exact hheld (hheight ▸ hh)

theorem Engine.Inv.setStep (hinv : engine.Inv c config h vs) {step : Step}
    (hlt : engine.state.height = h → step = .newRound ∨ step = .propose →
      engine.state.lockedRound < engine.state.round)
    (hheld : engine.holder = none ∨ step ≠ .precommitWait) :
    ({ engine with state := { engine.state with step } } : Engine).Inv c config h vs := by
  refine hinv.setState rfl ?_ ?_
  · intro hh
    have hcurrent := hinv.current hh
    exact hcurrent.move rfl rfl le_rfl le_rfl hcurrent.locked_le (hlt hh) hcurrent.locked_seen
  · intro hh task await hholder
    rcases hheld with hnone | hstep
    · rw [hnone] at hholder
      cases hholder
    · exact ⟨hstep, (hinv.held hh task await hholder).2⟩

/-- A later round. -/
theorem Engine.Inv.newRound (hinv : engine.Inv c config h vs) {round : Nat}
    (hround : engine.state.round < round)
    (hheld : engine.state.height = h → engine.holder = none) :
    ({ engine with state := engine.state.newRound round } : Engine).Inv c config h vs := by
  refine hinv.setState rfl ?_ ?_
  · intro hh
    have hcurrent := hinv.current hh
    have hlt : engine.state.lockedRound < round := hcurrent.locked_le.trans_lt hround
    exact hcurrent.move rfl rfl hround.le le_rfl hlt.le (fun _ => hlt) hcurrent.locked_seen
  · intro hh task await hholder
    rw [hheld hh] at hholder
    cases hholder

/-- A height that nobody has voted on yet. -/
theorem Current.newHeight {genesis : Hash} {own : Option Address} {state : State}
    {trace : List Effect} {appStateHash nextValidatorSetRoot eventTransactionRoot : Hash}
    (hnone : ∀ type a round b, ¬ Cast c genesis trace type a ⟨h, round, b⟩) :
    Current c genesis h vs own (state.newHeight h appStateHash vs nextValidatorSetRoot
      eventTransactionRoot) trace := by
  have hnew : ∀ round, (state.newHeight h appStateHash vs nextValidatorSetRoot
      eventTransactionRoot).roundStateOf round = RoundState.new vs := fun _ => rfl
  -- no round has votes or a proposal yet
  have hvotes : ∀ type, (RoundState.new vs).votes type = VoteSet.new vs := by
    intro type
    cases type with
    | prevote => rfl
    | precommit => rfl
  refine ⟨rfl, ?_, ?_, ?_, ?_, Nat.zero_lt_one, Nat.zero_le 1, fun _ => Nat.zero_lt_one, nofun,
    ?_, ?_⟩
  · intro type round
    rw [hnew, hvotes]
    exact VoteSet.counted_new type round
  · intro type a round b hb
    exact absurd hb (hnone type a round b)
  · intro type round entry hentry
    rw [hnew, hvotes] at hentry
    simp [VoteSet.new] at hentry
  · intro round msg hmsg
    rw [hnew] at hmsg
    cases hmsg
  · intro a _ type round b hb
    exact absurd hb (hnone type a round b)
  · intro a _ round b _ hb
    exact absurd hb (hnone .precommit a round b)

/-! ## Tasks -/

variable (c config h vs) in
/-- How a task leaves the engine: with the invariant, and ready for what it awaits. -/
structure Done (result : Option Await) (engine : Engine) : Prop where
  inv : engine.Inv c config h vs
  holder : engine.holder = none
  ready : engine.state.height = h → ∀ await ∈ result, await.Ready engine.state

theorem Engine.Inv.done (hinv : engine.Inv c config h vs) (hholder : engine.holder = none) :
    Done c config h vs none engine :=
  ⟨hinv, hholder, by simp⟩

theorem Kept.done {engine' : Engine} (hkept : Kept c config h vs engine engine')
    (hholder : engine.holder = none) {result : Option Await}
    (hready : engine.state.height = h → ∀ await ∈ result, await.Ready engine.state) :
    Done c config h vs result engine' := by
  refine ⟨hkept.inv, hkept.holder.trans hholder, ?_⟩
  intro hh await hawait
  have hbefore := hready (hkept.height ▸ hh) await hawait
  unfold Await.Ready at hbefore ⊢
  rw [hkept.step, hkept.lockedRound, hkept.round]
  exact hbefore

/-- A task that goes on to an `await` after a part that keeps the engine where it is. -/
theorem ends_await {x : Action Engine Unit} {await : Await} (hholder : engine.holder = none)
    (hx : Fallible.Ends x engine (fun _ => Kept c config h vs engine) (Kept c config h vs engine))
    (hready : engine.state.height = h → await.Ready engine.state) :
    Fallible.Ends (do x; return some await) engine (Done c config h vs) (Done c config h vs none) := by
  rw [Fallible.ends_bind]
  refine hx.mono ?_ ?_
  · intro _ engine' hkept
    rw [Fallible.ends_pure]
    refine hkept.done hholder ?_
    intro hh await' hawait
    cases hawait
    exact hready hh
  · intro engine' hkept
    exact hkept.done hholder (by simp)

/-! ### Proposing -/

section Proposing

variable (hinv : engine.Inv c config h vs) (hholder : engine.holder = none)
  (hstep : engine.state.height = h → engine.state.step ≠ .precommitWait ∧
    engine.state.lockedRound < engine.state.round)

include hinv hholder hstep

theorem ends_return_await {await : Await} :
    Done c config h vs (some await) engine := by
  refine hinv.kept.done hholder ?_
  intro hh await' hawait
  cases hawait
  exact ⟨(hstep hh).1, fun _ => (hstep hh).2⟩

theorem ends_propose_await {block : Block} :
    Fallible.Ends (do propose c config block; return some .sendProposalMessage) engine
      (Done c config h vs) (Done c config h vs none) := by
  refine ends_await hholder ?_ fun hh => ⟨(hstep hh).1, fun _ => (hstep hh).2⟩
  exact ends_propose hinv.kept fun msg => hinv.handleProposal msg

theorem ends_sendProposalMessage {transactions : List Transaction} :
    Fallible.Ends (sendProposalMessage c config transactions) engine
      (Done c config h vs) (Done c config h vs none) := by
  unfold sendProposalMessage
  rw [Fallible.ends_bind, Fallible.ends_get]
  split
  · exact ends_return_await hinv hholder hstep
  · split
    · exact ends_propose_await hinv hholder hstep
    · split
      · exact ends_propose_await hinv hholder hstep
      · exact ends_return_await hinv hholder hstep

theorem done_setStep_propose :
    Done c config h vs none
      { engine with state := { engine.state with step := .propose } } := by
  refine Engine.Inv.done ?_ hholder
  exact hinv.setStep (fun hh _ => (hstep hh).2) (.inl hholder)

theorem ends_enterPropose {transactions : Option (List Transaction)} :
    Fallible.Ends (enterPropose c config transactions) engine
      (Done c config h vs) (Done c config h vs none) := by
  unfold enterPropose
  rw [Fallible.ends_bind, Fallible.ends_get, Fallible.ends_bind]
  refine Action.ends_fromResult ?_ fun _ _ => hinv.done hholder
  intro proposes _
  split
  · split
    · exact ends_sendProposalMessage hinv hholder hstep
    · exact ends_return_await hinv hholder hstep
  · simp only [setTimeout, setStep, modifyState, Fallible.ends_bind, Fallible.ends_modify,
      Fallible.ends_pure]
    have hdone := done_setStep_propose hinv hholder hstep
    exact ⟨hdone.inv, hdone.holder, hdone.ready⟩

theorem ends_doNewRound :
    Fallible.Ends (doNewRound c config) engine (Done c config h vs) (Done c config h vs none) := by
  unfold doNewRound
  rw [Fallible.ends_bind, Fallible.ends_get]
  simp only
  split
  · exact done_setStep_propose hinv hholder hstep
  · split
    · exact ends_enterPropose hinv hholder hstep
    · split
      · exact ends_enterPropose hinv hholder hstep
      · exact ends_return_await hinv hholder hstep

/-- The continuations of `doNewRound`. -/
theorem ends_checkAppState {block : Block} :
    Fallible.Ends (checkAppState c config block) engine
      (Done c config h vs) (Done c config h vs none) := by
  unfold checkAppState
  rw [Fallible.ends_bind, Fallible.ends_get]
  split
  · exact ends_enterPropose hinv hholder hstep
  · rw [Fallible.ends_bind]
    refine Action.ends_fromResult ?_ fun _ _ => hinv.done hholder
    intro validatorSetHash _
    split
    · exact ends_enterPropose hinv hholder hstep
    · exact ends_return_await hinv hholder hstep

theorem ends_constructAndPropose {transactions : List Transaction} {timestamp : Nat}
    {lastBlockHash : Hash} {lastBlockConsensus : Consensus} :
    Fallible.Ends (constructAndPropose c config transactions timestamp lastBlockHash
        lastBlockConsensus) engine (Done c config h vs) (Done c config h vs none) := by
  unfold constructAndPropose
  rw [Fallible.ends_bind, Fallible.ends_get, Fallible.ends_bind]
  refine Action.ends_fromResult ?_ fun _ _ => hinv.done hholder
  intro block _
  exact ends_propose_await hinv hholder hstep

end Proposing

/-! ### Voting -/

section Voting

variable (hinv : engine.Inv c config h vs) (hholder : engine.holder = none)

include hinv

theorem Engine.Inv.sendPrevoteMessage {blockHash : Option Hash}
    (hown : engine.state.height = h → OwnVote c (config.genesisHash c) h vs engine.state
      engine.trace .prevote ⟨h, engine.state.round, blockHash.getD Hash.zero⟩) :
    Fallible.Ends (ChainCore.sendPrevoteMessage c config blockHash) engine
      (fun _ => Kept c config h vs engine) (Kept c config h vs engine) :=
  hinv.sendVote (fun msg => silent_checkValidBlock msg.vote.height msg.vote.round) hown

theorem Engine.Inv.sendPrecommitMessage {blockHash : Option Hash}
    (hown : engine.state.height = h → OwnVote c (config.genesisHash c) h vs engine.state
      engine.trace .precommit ⟨h, engine.state.round, blockHash.getD Hash.zero⟩) :
    Fallible.Ends (ChainCore.sendPrecommitMessage c config blockHash) engine
      (fun _ => Kept c config h vs engine) (Kept c config h vs engine) :=
  hinv.sendVote (fun _ => silent_pure) hown

omit hinv in
/-- A vote for nil is always allowed. -/
theorem ownVote_nil {type : VoteType} :
    OwnVote c (config.genesisHash c) h vs engine.state engine.trace type
      ⟨h, engine.state.round, Hash.zero⟩ :=
  ⟨rfl, fun hne => absurd rfl hne⟩

/-- What a majority stands for in the trace. -/
theorem Engine.Inv.seen (hh : engine.state.height = h) {type : VoteType} {round : Nat} {vote : Vote}
    (hmajority : ((engine.state.roundStateOf round).votes type).twoThirdsMajority = some vote) :
    Seen c (config.genesisHash c) h vs engine.trace type round vote.blockHash := by
  have hcurrent := hinv.current hh
  rcases (hcurrent.counted type round).quorum hmajority with ⟨voters, hnodup, hpasses, hvoters⟩
  refine ⟨voters, hnodup, hpasses, ?_⟩
  intro a ha
  rcases hvoters a ha with ⟨hweight, msg, hmem, hvote⟩
  rw [← hvote]
  exact hcurrent.recorded_cast type round (a, msg) hmem hweight

include hholder

/-- The prevote of `doPropose` and of the propose timeout. -/
theorem ends_prevote_await {blockHash : Option Hash} (hstep : engine.state.step = .propose)
    (hown : engine.state.height = h → OwnVote c (config.genesisHash c) h vs engine.state
      engine.trace .prevote ⟨h, engine.state.round, blockHash.getD Hash.zero⟩) :
    Fallible.Ends (do sendPrevoteMessage c config blockHash; return some .sendPrevoteMessage) engine
      (Done c config h vs) (Done c config h vs none) := by
  refine ends_await hholder (hinv.sendPrevoteMessage hown) ?_
  intro _
  exact ⟨by rw [hstep]; nofun, False.elim⟩

theorem ends_doPropose {world : World} (hstep : engine.state.step = .propose) :
    Fallible.Ends (doPropose c config world) engine
      (Done c config h vs) (Done c config h vs none) := by
  unfold doPropose
  rw [Fallible.ends_bind, Fallible.ends_get]
  simp only
  split
  · exact hinv.done hholder
  · rename_i msg hmsg
    split
    · exact ends_prevote_await hinv hholder hstep fun _ => ownVote_nil
    · split
      · exact ends_prevote_await hinv hholder hstep fun _ => ownVote_nil
      · split
        · -- not locked, or the locked block, which had a majority in an earlier round
          rename_i hlocked
          refine ends_prevote_await hinv hholder hstep ?_
          intro hh
          refine ⟨rfl, fun _ => ?_⟩
          rcases hlocked with hzero | hblock
          · exact .inl hzero
          · rcases (Option.any_eq_true _ _).mp hblock with ⟨block, hlockedBlock, hhash⟩
            have hcurrent := hinv.current hh
            have hseen := hcurrent.locked_seen block hlockedBlock
            rw [of_decide_eq_true hhash] at hseen
            exact .inr ⟨_, le_rfl, hcurrent.locked_lt (.inr hstep), hseen⟩
        · split
          · rename_i hmajority
            refine ends_prevote_await hinv hholder hstep ?_
            intro hh
            refine ⟨rfl, fun _ => ?_⟩
            rcases hmajority with ⟨hle, hmajority⟩
            rcases (Option.any_eq_true _ _).mp hmajority with ⟨vote, hvote, hhash⟩
            have hseen : Seen c (config.genesisHash c) h vs engine.trace .prevote _ vote.blockHash :=
              hinv.seen hh hvote
            rw [of_decide_eq_true hhash] at hseen
            -- the proposer's locked round is an earlier round
            rcases (hinv.current hh).proposal _ msg hmsg with hzero | hlt
            · exact .inl (by omega)
            · exact .inr ⟨_, hle, hlt, hseen⟩
          · exact hinv.done hholder

theorem ends_waitPrevote :
    Fallible.Ends waitPrevote engine (Done c config h vs) (Done c config h vs none) := by
  unfold waitPrevote
  rw [Fallible.ends_bind, Fallible.ends_get]
  simp only
  split
  · simp only [setTimeout, setStep, modifyState, Fallible.ends_bind, Fallible.ends_modify,
      Fallible.ends_pure]
    have hwait := @Engine.Inv.setStep c config engine h vs hinv .prevoteWait (by simp) (.inl hholder)
    exact ⟨hwait, hholder, by simp⟩
  · exact hinv.done hholder

/-- The precommit of `doPrevoteOrWait`. -/
theorem ends_precommit_await {blockHash : Option Hash}
    (hstep : engine.state.step = .prevote ∨ engine.state.step = .prevoteWait)
    (hown : engine.state.height = h → OwnVote c (config.genesisHash c) h vs engine.state
      engine.trace .precommit ⟨h, engine.state.round, blockHash.getD Hash.zero⟩) :
    Fallible.Ends (do sendPrecommitMessage c config blockHash; return some .sendPrecommitMessage)
      engine (Done c config h vs) (Done c config h vs none) := by
  refine ends_await hholder (hinv.sendPrecommitMessage hown) ?_
  intro _
  refine ⟨?_, False.elim⟩
  rcases hstep with hstep | hstep
  · rw [hstep]
    nofun
  · rw [hstep]
    nofun

omit hinv hholder in
theorem proposedBlock_eq_some {roundState : RoundState} {blockHash : Hash} {block : Block}
    (hblock : roundState.proposedBlock c blockHash = some block) : block.hash c = blockHash := by
  unfold RoundState.proposedBlock at hblock
  split at hblock
  · split at hblock
    · rename_i heq
      cases hblock
      exact heq.symm
    · cases hblock
  · cases hblock

/-- Locking a block that has a majority of prevotes in the round. -/
theorem Engine.Inv.lock {vote : Vote} {block : Block}
    (hstep : engine.state.step = .prevote ∨ engine.state.step = .prevoteWait)
    (hmajority : engine.state.currentRoundState.prevote.twoThirdsMajority = some vote)
    (hhash : block.hash c = vote.blockHash) :
    ({ engine with
        state := { engine.state with lockedRound := engine.state.round, lockedBlock := some block } } :
      Engine).Inv c config h vs := by
  refine hinv.setState rfl ?_ ?_
  · intro hh
    have hcurrent := hinv.current hh
    refine hcurrent.move rfl rfl le_rfl hcurrent.locked_le le_rfl ?_ ?_
    · intro hpropose
      rcases hstep with hstep | hstep
      · simp [hstep] at hpropose
      · simp [hstep] at hpropose
    · intro block' hblock'
      cases hblock'
      rw [hhash]
      exact hinv.seen hh hmajority
  · intro _ task await hsome
    rw [hholder] at hsome
    cases hsome

theorem ends_doPrevoteOrWait
    (hstep : engine.state.step = .prevote ∨ engine.state.step = .prevoteWait) :
    Fallible.Ends (doPrevoteOrWait c config) engine
      (Done c config h vs) (Done c config h vs none) := by
  unfold doPrevoteOrWait
  rw [Fallible.ends_bind, Fallible.ends_get]
  simp only
  split
  · exact ends_waitPrevote hinv hholder
  · rename_i vote hmajority
    split
    · -- a majority for the proposed block, which is locked and precommitted
      rename_i block hblock
      rw [modifyState, Fallible.ends_bind, Fallible.ends_modify]
      have hlock := hinv.lock hholder hstep hmajority (proposedBlock_eq_some hblock)
      refine ends_precommit_await hlock hholder hstep ?_
      intro hh
      have hseen : Seen c (config.genesisHash c) h vs engine.trace .prevote engine.state.round
          vote.blockHash := hinv.seen hh hmajority
      exact ⟨rfl, fun _ => ⟨rfl, hseen⟩⟩
    · split
      · exact ends_precommit_await hinv hholder hstep fun _ => ownVote_nil
      · exact ends_waitPrevote hinv hholder

theorem ends_waitPrecommit :
    Fallible.Ends waitPrecommit engine (Done c config h vs) (Done c config h vs none) := by
  unfold waitPrecommit
  rw [Fallible.ends_bind, Fallible.ends_get]
  simp only
  split
  · simp only [setTimeout, setStep, modifyState, Fallible.ends_bind, Fallible.ends_modify,
      Fallible.ends_pure]
    have hwait := @Engine.Inv.setStep c config engine h vs hinv .precommitWait (by simp)
      (.inl hholder)
    exact ⟨hwait, hholder, by simp⟩
  · exact hinv.done hholder

omit hholder in
/-- Committing a block that has a majority of precommits in the round. -/
theorem Engine.Inv.commit {vote : Vote} {block : Block} {consensus : Consensus}
    (hmajority : engine.state.currentRoundState.precommit.twoThirdsMajority = some vote)
    (hhash : block.hash c = vote.blockHash) :
    ({ engine with
        trace := engine.trace ++ [.commitBlock engine.state.height block consensus] } :
      Engine).Inv c config h vs := by
  -- a commit is no vote
  have hcast : ∀ type a round b, Cast c (config.genesisHash c)
      (engine.trace ++ [.commitBlock engine.state.height block consensus]) type a ⟨h, round, b⟩ →
        Cast c (config.genesisHash c) engine.trace type a ⟨h, round, b⟩ := by
    rintro type a round b ⟨msg, hmem, hmsg⟩
    rcases List.mem_append.mp hmem with hold | hnew
    · exact ⟨msg, hold, hmsg⟩
    · cases List.mem_singleton.mp hnew
  refine ⟨hinv.rules.append hcast ?_, ?_, ?_, ?_⟩
  · rintro block' consensus' heq
    rcases Effect.commitBlock.inj heq with ⟨hh, rfl, -⟩
    rw [hhash]
    exact ⟨_, hinv.seen hh hmajority⟩
  · intro hentered
    have hsame : entered h (engine.trace ++ [.commitBlock engine.state.height block consensus]) =
        entered h engine.trace := by simp [entered]
    rw [hsame] at hentered
    rcases hinv.before hentered with ⟨hheight, hnone⟩
    exact ⟨hheight, fun type a round b hb => hnone type a round b (hcast _ _ _ _ hb)⟩
  · intro hh
    exact (hinv.current hh).mono (List.subset_append_left _ _) hcast
  · exact hinv.held

theorem ends_doPrecommitOrWait :
    Fallible.Ends (doPrecommitOrWait c) engine (Done c config h vs) (Done c config h vs none) := by
  unfold doPrecommitOrWait
  rw [Fallible.ends_bind, Fallible.ends_get]
  simp only
  split
  · exact ends_waitPrecommit hinv hholder
  · rename_i vote hmajority
    split
    · rename_i block hblock
      have hcommit := @Engine.Inv.commit c config engine h vs hinv vote block
        ⟨vote, engine.state.currentRoundState.precommit.signatures vote.blockHash⟩ hmajority
        (proposedBlock_eq_some hblock)
      have hstep := @Engine.Inv.setStep c config _ h vs hcommit .committed (by simp) (.inl hholder)
      simp only [commitBlock, hmajority, setStep, emit, modifyState, Fallible.ends_bind,
        Fallible.ends_get, Fallible.ends_modify, Fallible.ends_pure]
      refine ⟨hstep, hholder, ?_⟩
      intro _ await hawait
      cases hawait
      exact ⟨by simp, False.elim⟩
    · split
      · rw [modifyState, Fallible.ends_bind, Fallible.ends_modify]
        exact Engine.Inv.done (hinv.newRound (Nat.lt_succ_self _) fun _ => hholder) hholder
      · exact ends_waitPrecommit hinv hholder

theorem ends_proceedConsensus {world : World} :
    Fallible.Ends (proceedConsensus c config world) engine
      (Done c config h vs) (Done c config h vs none) := by
  unfold proceedConsensus
  rw [Fallible.ends_bind, Fallible.ends_get]
  split
  · rename_i hstep
    refine ends_doNewRound hinv hholder ?_
    intro hh
    exact ⟨by rw [hstep]; nofun, (hinv.current hh).locked_lt (.inl hstep)⟩
  · rename_i hstep
    exact ends_doPropose hinv hholder hstep
  · rename_i hstep
    exact ends_doPrevoteOrWait hinv hholder (.inl hstep)
  · rename_i hstep
    exact ends_doPrevoteOrWait hinv hholder (.inr hstep)
  · exact ends_doPrecommitOrWait hinv hholder
  · exact ends_doPrecommitOrWait hinv hholder
  · exact hinv.done hholder

theorem ends_runProposeTimeout {height round : Nat} :
    Fallible.Ends (runProposeTimeout c config height round) engine
      (Done c config h vs) (Done c config h vs none) := by
  unfold runProposeTimeout
  rw [Fallible.ends_bind, Fallible.ends_get]
  simp only
  split
  · rename_i hstill
    exact ends_prevote_await hinv hholder hstill.2.2 fun _ => ownVote_nil
  · exact hinv.done hholder

/-! ### The other tasks -/

theorem ends_runCheckValidBlock {height round : Nat} :
    Fallible.Ends (runCheckValidBlock c height round) engine
      (fun _ => Done c config h vs none) (Done c config h vs none) := by
  -- the valid block and its round are no part of the invariant
  have hvalid : ∀ state : State, state.height = engine.state.height →
      state.validatorSet = engine.state.validatorSet → state.roundState = engine.state.roundState →
      state.round = engine.state.round → state.lockedRound = engine.state.lockedRound →
      state.step = engine.state.step → state.lockedBlock = engine.state.lockedBlock →
      Done c config h vs none { engine with state } := by
    intro state hheight hvalidatorSet hroundState hround hlocked hstep hblock
    refine Engine.Inv.done (hinv.setState hheight ?_ ?_) hholder
    · intro hh
      have hcurrent := hinv.current hh
      refine hcurrent.move hvalidatorSet hroundState hround.ge hlocked.ge ?_ ?_ ?_
      · rw [hlocked, hround]
        exact hcurrent.locked_le
      · rw [hlocked, hround, hstep]
        exact hcurrent.locked_lt
      · rw [hlocked, hblock]
        exact hcurrent.locked_seen
    · intro _ task await hsome
      rw [hholder] at hsome
      cases hsome
  rw [runCheckValidBlock, modifyState, Fallible.ends_modify]
  split
  · exact hinv.done hholder
  · split
    · exact hinv.done hholder
    · split
      · exact hvalid _ rfl rfl rfl rfl rfl rfl rfl
      · exact hinv.done hholder

theorem ends_runCheckRoundSkip {height round : Nat} {type : VoteType} :
    Fallible.Ends (runCheckRoundSkip height round type) engine
      (fun _ => Done c config h vs none) (Done c config h vs none) := by
  rw [runCheckRoundSkip, modifyState, Fallible.ends_modify]
  split
  · exact hinv.done hholder
  · rename_i hlater
    split
    · exact Engine.Inv.done (hinv.newRound (by omega) fun _ => hholder) hholder
    · exact hinv.done hholder

/-- Entering a height, which is entered for the first time if it is the one of the invariant. -/
theorem ends_runNewHeight {height : Nat}
    {appStateHash nextValidatorSetRoot eventTransactionRoot : Hash} :
    Fallible.Ends (runNewHeight height appStateHash nextValidatorSetRoot eventTransactionRoot) engine
      (fun _ engine' => EntersOnce h vs engine'.trace → Done c config h vs none engine')
      fun engine' => EntersOnce h vs engine'.trace → Done c config h vs none engine' := by
  simp only [runNewHeight, modifyState, emit, Fallible.ends_bind, Fallible.ends_get,
    Fallible.ends_modify]
  intro honce
  have hcast : ∀ type a round b, Cast c (config.genesisHash c)
      (engine.trace ++ [.newHeight height engine.validatorSet]) type a ⟨h, round, b⟩ →
        Cast c (config.genesisHash c) engine.trace type a ⟨h, round, b⟩ := by
    intro type a round b hb
    exact @cast_append_elsewhere c _ h _ (.newHeight height engine.validatorSet) trivial _ _ _ _ hb
  refine Engine.Inv.done ⟨hinv.rules.append_elsewhere trivial, ?_, ?_, ?_⟩ hholder
  · intro hentered
    have hparts : entered h engine.trace = [] ∧ height ≠ h := by
      simpa [entered] using hentered
    rcases hinv.before hparts.1 with ⟨-, hnone⟩
    exact ⟨hparts.2, fun type a round b hb => hnone type a round b (hcast _ _ _ _ hb)⟩
  · intro hh
    have hheight : height = h := hh
    subst hheight
    have hentered : entered height (engine.trace ++ [.newHeight height engine.validatorSet]) =
        entered height engine.trace ++ [engine.validatorSet] := by
      simp [entered]
    have honce' : entered height engine.trace ++ [engine.validatorSet] <+: [vs] := by
      rw [← hentered]
      exact honce
    -- the height was not entered before, so there are no votes of it
    have hfirst : entered height engine.trace = [] := by
      have hlength := honce'.length_le
      simpa using hlength
    rcases hinv.before hfirst with ⟨-, hnone⟩
    rw [hfirst] at honce'
    obtain rfl : engine.validatorSet = vs := by simpa using honce'
    exact Current.newHeight fun type a round b hb => hnone type a round b (hcast _ _ _ _ hb)
  · intro _ task await hsome
    have hsome' : engine.holder = some (task, await) := hsome
    rw [hholder] at hsome'
    cases hsome'

/-- A task, until its end or its first `await`. -/
theorem ends_task (task : Task) (world : World) :
    Fallible.Ends (task.run c config world) engine
      (fun result engine' => EntersOnce h vs engine'.trace → Done c config h vs result engine')
      fun engine' => EntersOnce h vs engine'.trace → Done c config h vs none engine' := by
  cases task with
  | proceedConsensus =>
      exact (ends_proceedConsensus hinv hholder).mono (fun _ _ hdone _ => hdone)
        fun _ hdone _ => hdone
  | proposeTimeout height round =>
      exact (ends_runProposeTimeout hinv hholder).mono (fun _ _ hdone _ => hdone)
        fun _ hdone _ => hdone
  | checkValidBlock height round =>
      rw [Task.run, Fallible.ends_bind]
      exact (ends_runCheckValidBlock hinv hholder).mono (fun _ _ hdone _ => hdone)
        fun _ hdone _ => hdone
  | checkRoundSkip height round type =>
      rw [Task.run, Fallible.ends_bind]
      exact (ends_runCheckRoundSkip hinv hholder).mono (fun _ _ hdone _ => hdone)
        fun _ hdone _ => hdone
  | newHeight height appStateHash nextValidatorSetRoot eventTransactionRoot =>
      rw [Task.run, Fallible.ends_bind]
      exact (ends_runNewHeight hinv hholder).mono (fun _ _ hdone => hdone) fun _ hdone => hdone

/-- A task, from an `await` for which the engine is ready. -/
theorem ends_resume {await : Await} {answer : Answer} {action : Action Engine (Option Await)}
    (hready : engine.state.height = h → await.Ready engine.state)
    (hresume : await.resume c config answer = some action) :
    Fallible.Ends action engine (Done c config h vs) (Done c config h vs none) := by
  -- a task that still has a block to propose has not locked this round
  have hproposing : await.Proposing → engine.state.height = h →
      engine.state.step ≠ .precommitWait ∧ engine.state.lockedRound < engine.state.round :=
    fun hawait hh => ⟨(hready hh).1, (hready hh).2 hawait⟩
  have hdone := hinv.done hholder
  cases Await.resumes hresume with
  | lastBlock => exact ends_checkAppState hinv hholder (hproposing trivial)
  | noTransactions => exact hdone
  | newRoundTransactions => exact ends_enterPropose hinv hholder (hproposing trivial)
  | proposeTransactions => exact ends_sendProposalMessage hinv hholder (hproposing trivial)
  | lastConsensus => exact ends_constructAndPropose hinv hholder (hproposing trivial)
  | sendProposalMessage => exact done_setStep_propose hinv hholder (hproposing trivial)
  | sendPrevoteMessage => exact Engine.Inv.done (hinv.setStep (by simp) (.inl hholder)) hholder
  | sendPrecommitMessage => exact Engine.Inv.done (hinv.setStep (by simp) (.inl hholder)) hholder
  | commitBlock => exact hdone
  | failed => exact hdone

end Voting

/-! ## Events -/

theorem trace_settle (task : Task) (result : EStateM.Result Error Engine (Option Await)) :
    (settle task result).trace = (Fallible.final result).trace := by
  cases result with
  | ok await engine' =>
      cases await with
      | none => rfl
      | some await => rfl
  | error e engine' => rfl

/-- The engine after a task has ended or awaits something. -/
theorem inv_settle {task : Task} {x : Action Engine (Option Await)}
    (hx : Fallible.Ends x engine
      (fun result engine' => EntersOnce h vs engine'.trace → Done c config h vs result engine')
      fun engine' => EntersOnce h vs engine'.trace → Done c config h vs none engine')
    (honce : EntersOnce h vs (settle task (x engine)).trace) :
    (settle task (x engine)).Inv c config h vs := by
  rw [trace_settle] at honce
  unfold Fallible.Ends at hx
  cases hresult : x engine with
  | ok await engine' =>
      rw [hresult] at hx honce
      have hdone := hx honce
      cases await with
      | none => exact hdone.inv
      | some await =>
          refine ⟨hdone.inv.rules, hdone.inv.before, hdone.inv.current, ?_⟩
          intro hh task' await' hsome
          cases hsome
          exact hdone.ready hh await rfl
  | error e engine' =>
      rw [hresult] at hx honce
      exact (hx honce).inv

variable (c config h vs) in
/-- A vote of the height with the node's own signature is one that it has sent, where the node is one
of the validators. -/
def Genuine (engine : Engine) (msg : ConsensusMessage) : Prop :=
  ∀ (type : VoteType) (vote : VoteMessage type), msg = voteMessage vote → vote.vote.height = h →
    ∀ address ∈ config.address c, 0 < vs.weight address →
      vote.signerAddress c (config.genesisHash c) = .ok address →
        Cast c (config.genesisHash c) engine.trace type address vote.vote

theorem Engine.Inv.newConsensusMessage (hinv : engine.Inv c config h vs) {msg : ConsensusMessage}
    (hgenuine : Genuine c config h vs engine msg) :
    Fallible.Ends (ChainCore.newConsensusMessage c config msg) engine
      (fun _ => Kept c config h vs engine) (Kept c config h vs engine) := by
  -- an own vote that comes back is recorded already
  have hown : ∀ (type : VoteType) (vote : VoteMessage type), msg = voteMessage vote →
      ∀ address ∈ config.address c, vote.signerAddress c (config.genesisHash c) = .ok address →
        0 < vs.weight address → engine.state.height = h → vote.vote.height = engine.state.height →
        ((engine.state.roundStateOf vote.vote.round).votes type).has address = true := by
    intro type vote hmsg address ha hsigner hpos hh hheight
    have hcast := hgenuine type vote hmsg (hheight.trans hh) address ha hpos hsigner
    have hvote : vote.vote = ⟨h, vote.vote.round, vote.vote.blockHash⟩ := by
      rw [← hh, ← hheight]
    rw [hvote] at hcast
    rcases (hinv.current hh).cast_recorded type address _ _ hcast with ⟨msg', hmem, -⟩
    exact VoteSet.has_iff.mpr ⟨msg', hmem⟩
  cases msg with
  | proposal msg => exact hinv.handleProposal msg
  | prevote msg =>
      refine hinv.handleVote (silent_checkValidBlock _ _) ?_
      intro address ha hsigner hpos hh hheight hhas
      exact absurd (hown _ msg rfl address ha hsigner hpos hh hheight) hhas
  | precommit msg =>
      refine hinv.handleVote silent_pure ?_
      intro address ha hsigner hpos hh hheight hhas
      exact absurd (hown _ msg rfl address ha hsigner hpos hh hheight) hhas

/-- A timer. The precommit timeout finds no task at an `await`, or the step would be another. -/
theorem Engine.Inv.timer (hinv : engine.Inv c config h vs) (timer : Timer) :
    Fallible.Ends (timer.run c config) engine (fun _ => Engine.Inv c config h vs)
      (Engine.Inv c config h vs) := by
  cases timer with
  | propose height round => exact hinv
  | prevote height round =>
      rw [Timer.run, Fallible.ends_bind, Fallible.ends_get]
      simp only
      split
      · rw [Fallible.ends_bind]
        refine (hinv.sendPrecommitMessage fun _ => ownVote_nil).mono ?_ fun _ hkept => hkept.inv
        intro _ engine' hkept
        exact hkept.inv
      · exact hinv
  | precommit height round =>
      rw [Timer.run, Fallible.ends_bind, Fallible.ends_get]
      simp only
      split
      · rename_i hstill
        refine hinv.newRound (Nat.lt_succ_self _) ?_
        intro hh
        -- a task that awaits something never awaits it in the step `precommitWait`
        rcases hholder : engine.holder with _ | ⟨task, await⟩
        · rfl
        · exact absurd hstill.2.2 (hinv.held hh task await hholder).1
      · exact hinv

/-- Every event keeps the invariant, if it brings no forged vote of the node itself and does not
enter the height again. -/
theorem Engine.Inv.step (hinv : engine.Inv c config h vs) (event : Event)
    (hgenuine : ∀ msg, event = .newConsensusMessage msg → Genuine c config h vs engine msg)
    (honce : EntersOnce h vs (engine.step c config event).trace) :
    (engine.step c config event).Inv c config h vs := by
  cases event with
  | start =>
      rw [Engine.step]
      split
      · exact hinv
      · exact hinv
  | stop => exact hinv
  | loop =>
      rw [Engine.step]
      split
      · exact hinv
      · exact hinv
  | newConsensusMessage msg =>
      have hkept := (hinv.newConsensusMessage (hgenuine msg rfl)).final
      exact hkept.inv
  | acquire world =>
      rcases hholder : engine.holder with _ | ⟨task, await⟩
      · rcases hqueue : engine.queue with _ | ⟨task, queue⟩
        · simp only [Engine.step, hholder, hqueue]
          exact hinv
        · simp only [Engine.step, hholder, hqueue] at honce ⊢
          -- a task that takes the free lock starts from the same invariant
          have hstart : ({ engine with holder := none, queue } : Engine).Inv c config h vs := by
            unfold Engine.Inv
            rw [← hholder]
            exact hinv
          exact inv_settle (ends_task hstart rfl task world) honce
      · simp only [Engine.step, hholder]
        exact hinv
  | resume answer =>
      rcases hholder : engine.holder with _ | ⟨task, await⟩
      · simp only [Engine.step, hholder]
        exact hinv
      · rcases hresume : await.resume c config answer with _ | action
        · simp only [Engine.step, hholder, hresume]
          exact hinv
        · simp only [Engine.step, hholder, hresume] at honce ⊢
          have hstart : ({ engine with holder := none } : Engine).Inv c config h vs :=
            ⟨hinv.rules, hinv.before, hinv.current, fun _ _ _ hsome => absurd hsome (by simp)⟩
          -- what was checked before the task waited still holds when it goes on
          have hready : engine.state.height = h → await.Ready engine.state :=
            fun hh => hinv.held hh task await hholder
          refine inv_settle ?_ honce
          exact (ends_resume hstart rfl hready hresume).mono (fun _ _ hdone _ => hdone)
            fun _ hdone _ => hdone
  | timeout timer =>
      rw [Engine.step]
      split
      · have hstart : ({ engine with timers := engine.timers.erase timer } : Engine).Inv
            c config h vs := hinv
        exact (hstart.timer timer).final
      · exact hinv
  | prevoteTimeout =>
      rw [Engine.step]
      split
      · exact hinv.setStep (by simp) (.inr nofun)
      · exact hinv
  | setNewHeight height appStateHash validatorSet nextValidatorSetRoot eventTransactionRoot =>
      exact hinv

end Invariants

end ChainCore
end UniqysKit
