import Mathlib.Data.List.DropRight
import UniqysKit.ChainCore.Agreement
import UniqysKit.ChainCore.EngineChanges
import UniqysKit.ChainCore.EngineFrame
import UniqysKit.Library.Runs

/-!
# The votes of one node at a height

A vote is passed on once: it is recorded before, and what was recorded is dropped.  So no signer, and
in particular not the node itself, has two votes of a kind in a round among the messages that the
node gossips.  The votes that the node makes itself are for the round it is in, and within a height
that only grows (`votes_once_and_forward`).
-/

namespace UniqysKit
namespace ChainCore

open Library Engine

/-! ## The trace of a height -/

/-- What the node has done since it entered the height. -/
def sinceHeight (trace : List Effect) : List Effect :=
  trace.rtakeWhile fun effect => effect.newHeight?.isNone

theorem sinceHeight_append_newHeight (trace : List Effect) (height : Nat)
    (validatorSet : ValidatorSet) : sinceHeight (trace ++ [.newHeight height validatorSet]) = [] :=
  List.rtakeWhile_concat_neg _ _ _ (by simp [Effect.newHeight?])

theorem sinceHeight_append {trace : List Effect} {effect : Effect}
    (heffect : effect.newHeight? = none) :
    sinceHeight (trace ++ [effect]) = sinceHeight trace ++ [effect] :=
  List.rtakeWhile_concat_pos _ _ _ (by simp [heffect])

/-- The vote of a kind that is passed on. -/
def Effect.vote? : (type : VoteType) → Effect → Option (VoteMessage type)
  | .prevote, .gossip (.prevote msg) => some msg
  | .precommit, .gossip (.precommit msg) => some msg
  | _, _ => none

/-- The votes of a kind that were passed on at the height, in their order. -/
def votesSince (type : VoteType) (trace : List Effect) : List (VoteMessage type) :=
  (sinceHeight trace).filterMap (Effect.vote? type)

theorem votesSince_append_other {type : VoteType} {trace : List Effect} {effect : Effect}
    (heffect : effect.newHeight? = none) (hvote : effect.vote? type = none) :
    votesSince type (trace ++ [effect]) = votesSince type trace := by
  rw [votesSince, sinceHeight_append heffect, List.filterMap_append]
  simp [votesSince, hvote]

theorem votesSince_append_vote {type : VoteType} (msg : VoteMessage type) (trace : List Effect) :
    votesSince type (trace ++ [.gossip (voteMessage msg)]) = votesSince type trace ++ [msg] := by
  have heffect : (Effect.gossip (voteMessage msg)).newHeight? = none := rfl
  rw [votesSince, sinceHeight_append heffect, List.filterMap_append]
  cases type with
  | prevote => rfl
  | precommit => rfl

/-- A vote of the other kind. -/
theorem vote?_voteMessage_of_ne {type type' : VoteType} (hne : type' ≠ type)
    (msg : VoteMessage type) : (Effect.gossip (voteMessage msg)).vote? type' = none := by
  cases type with
  | prevote =>
      cases type' with
      | prevote => exact absurd rfl hne
      | precommit => rfl
  | precommit =>
      cases type' with
      | prevote => rfl
      | precommit => exact absurd rfl hne

/-! ## One vote in a round -/

section Once

variable (c : Crypto) (config : Config)

/-- No signer has two votes of a kind in a round, and whose vote was passed on is recorded. -/
structure Single (state : State) (trace : List Effect) : Prop where
  once : ∀ type, (votesSince type trace).Pairwise fun msg msg' => ∀ address,
    msg.signerAddress c (config.genesisHash c) = .ok address →
    msg'.signerAddress c (config.genesisHash c) = .ok address → msg.vote.round ≠ msg'.vote.round
  recorded : ∀ type, ∀ msg ∈ votesSince type trace, ∀ address,
    msg.signerAddress c (config.genesisHash c) = .ok address →
      ((state.roundStateOf msg.vote.round).votes type).has address = true

variable {c config} {engine engine' : Engine} {state state' : State} {trace trace' : List Effect}

/-- The same votes, and a state that has recorded no less. -/
theorem Single.mono (h : Single c config state trace)
    (hvotes : ∀ type, votesSince type trace' = votesSince type trace)
    (hhas : ∀ type round address, ((state.roundStateOf round).votes type).has address = true →
      ((state'.roundStateOf round).votes type).has address = true) :
    Single c config state' trace' := by
  refine ⟨?_, ?_⟩
  · intro type
    rw [hvotes]
    exact h.once type
  · intro type msg hmem address hsigner
    rw [hvotes] at hmem
    exact hhas type _ address (h.recorded type msg hmem address hsigner)

theorem VoteSet.has_of_messages {type : VoteType} {set set' : VoteSet type} {address : Address}
    {msg : VoteMessage type}
    (hmessages : set'.messageOfValidator = set.messageOfValidator ++ [(address, msg)]) :
    set'.has address = true ∧ ∀ other, set.has other = true → set'.has other = true := by
  unfold VoteSet.has
  rw [hmessages]
  refine ⟨by simp, ?_⟩
  intro other hother
  rw [List.any_append, hother, Bool.true_or]

/-- The state after a vote was recorded. -/
theorem has_recordVote {type : VoteType} {msg : VoteMessage type} {set : VoteSet type}
    {address : Address}
    (hmessages : set.messageOfValidator =
      ((engine.state.roundStateOf msg.vote.round).votes type).messageOfValidator ++ [(address, msg)])
    (type' : VoteType) (round : Nat) (other : Address)
    (hhas : ((engine.state.roundStateOf round).votes type').has other = true) :
    (((recordVote engine msg set).state.roundStateOf round).votes type').has other = true := by
  rcases engine.state.votes_setVotes msg.vote.round type set type' round with ⟨rfl, rfl⟩ | hsame
  · unfold recordVote
    rw [State.roundStateOf_setRoundState, RoundState.votes_setVotes]
    exact (VoteSet.has_of_messages hmessages).2 other hhas
  · unfold recordVote
    rw [hsame]
    exact hhas

theorem Single.change (hchange : Change c config engine engine')
    (h : Single c config engine.state engine.trace) :
    Single c config engine'.state engine'.trace := by
  cases hchange with
  | idle hstate htrace =>
      rw [hstate, htrace]
      exact h
  | proposal _ _ _ _ hstate htrace =>
      rw [hstate, htrace]
      refine h.mono (fun type => votesSince_append_other rfl ?_) ?_
      · cases type with
        | prevote => rfl
        | precommit => rfl
      · intro type round address hhas
        rw [State.votes_setProposal]
        exact hhas
  | stranger _ _ _ _ hstate htrace =>
      rw [hstate, htrace]
      exact h.mono (fun _ => rfl) (has_recordVote rfl)
  | @vote type msg address power hheight hsigner hhas hpower hstate htrace =>
      have hkept := @has_recordVote engine type msg
        ((((engine.state.roundStateOf msg.vote.round).votes type).record address msg).count
          power msg.vote) address rfl
      have hnew : ((engine'.state.roundStateOf msg.vote.round).votes type).has address = true := by
        rw [hstate]
        unfold recordVote
        rw [State.roundStateOf_setRoundState, RoundState.votes_setVotes]
        exact (VoteSet.has_of_messages rfl).1
      rw [← hstate] at hkept
      rw [htrace]
      refine ⟨?_, ?_⟩
      · intro type'
        by_cases htype : type' = type
        · subst htype
          rw [votesSince_append_vote, List.pairwise_append]
          refine ⟨h.once type', List.pairwise_singleton _ _, ?_⟩
          -- what was passed on before is recorded, and the new vote was not
          rintro before hbefore _ hlast address' hsigner' hsigner'' hround
          obtain rfl := List.mem_singleton.mp hlast
          obtain rfl : address = address' := Except.ok.inj (hsigner.symm.trans hsigner'')
          have hrecorded := h.recorded type' before hbefore address hsigner'
          rw [hround] at hrecorded
          exact hhas hrecorded
        · rw [votesSince_append_other rfl (vote?_voteMessage_of_ne htype msg)]
          exact h.once type'
      · intro type' msg' hmem address' hsigner'
        by_cases htype : type' = type
        · subst htype
          rw [votesSince_append_vote] at hmem
          rcases List.mem_append.mp hmem with hold | hlast
          · exact hkept type' _ address' (h.recorded type' msg' hold address' hsigner')
          · obtain rfl := List.mem_singleton.mp hlast
            obtain rfl : address = address' := Except.ok.inj (hsigner.symm.trans hsigner')
            exact hnew
        · rw [votesSince_append_other rfl (vote?_voteMessage_of_ne htype msg)] at hmem
          exact hkept type' _ address' (h.recorded type' msg' hmem address' hsigner')
  | setStep hstate htrace =>
      rw [hstate, htrace]
      exact h.mono (fun _ => rfl) fun _ _ _ hhas => hhas
  | lock _ _ hstate htrace =>
      rw [hstate, htrace]
      exact h.mono (fun _ => rfl) fun _ _ _ hhas => hhas
  | validBlock _ _ _ hstate htrace =>
      rw [hstate, htrace]
      exact h.mono (fun _ => rfl) fun _ _ _ hhas => hhas
  | newRound _ hstate htrace =>
      rw [hstate, htrace]
      exact h.mono (fun _ => rfl) fun _ _ _ hhas => hhas
  | newHeight hstate htrace =>
      -- the votes of the last height are forgotten, and not looked at any more
      rw [htrace]
      refine ⟨?_, ?_⟩
      · intro type
        rw [votesSince, sinceHeight_append_newHeight]
        exact .nil
      · intro type msg hmem
        rw [votesSince, sinceHeight_append_newHeight] at hmem
        cases hmem

theorem Single.step (h : Single c config engine.state engine.trace) (event : Event) :
    Single c config (engine.step c config event).state (engine.step c config event).trace := by
  refine step_keeps (P := Single c config) event h (fun _ _ => Single.change) ?_
  intro vote block
  refine h.mono (fun type => votesSince_append_other rfl ?_) fun _ _ _ hhas => hhas
  cases type with
  | prevote => rfl
  | precommit => rfl

theorem single_new (initialValidatorSet : ValidatorSet) :
    Single c config (Engine.new c initialValidatorSet).state
      (Engine.new c initialValidatorSet).trace := by
  have hnone : ∀ type, votesSince type (Engine.new c initialValidatorSet).trace = [] := by
    intro type
    exact congrArg _ (sinceHeight_append_newHeight [] 0 ⟨[]⟩)
  refine ⟨?_, ?_⟩
  · intro type
    rw [hnone]
    exact .nil
  · intro type msg hmem
    rw [hnone] at hmem
    cases hmem

end Once

/-! ## The rounds of the votes -/

/-- The round of a vote that is passed on. -/
def Effect.votedRound : Effect → Option Nat
  | .gossip (.prevote msg) => some msg.vote.round
  | .gossip (.precommit msg) => some msg.vote.round
  | _ => none

theorem votedRound_voteMessage {type : VoteType} (msg : VoteMessage type) :
    (Effect.gossip (voteMessage msg)).votedRound = some msg.vote.round := by
  cases type with
  | prevote => rfl
  | precommit => rfl

section Forward

variable (c : Crypto) (config : Config)

/-- The rounds of the votes that the node makes at an event, which the message is not that it gets. -/
def castRounds (engine : Engine) (event : Event) : List Nat :=
  match event.message with
  | some _ => []
  | none => (added c config engine event).filterMap Effect.votedRound

/-- A node, and the rounds in which it has voted since it entered the height. -/
structure Voter where
  engine : Engine
  rounds : List Nat

namespace Voter

def new (initialValidatorSet : ValidatorSet) : Voter := ⟨Engine.new c initialValidatorSet, []⟩

def step (voter : Voter) (event : Event) : Voter where
  engine := voter.engine.step c config event
  rounds :=
    if (added c config voter.engine event).any fun effect => effect.newHeight?.isSome then []
    else voter.rounds ++ castRounds c config voter.engine event

end Voter

/-- The round does not go back unless a height is entered. If the node has made the votes itself, they
are for the rounds that it was in meanwhile. -/
def forward (own : Bool) : Fallible.Progress Engine where
  rel engine engine' := ∃ effects, engine'.trace = engine.trace ++ effects ∧
    ((∃ effect ∈ effects, effect.newHeight?.isSome = true) ∨
      engine.state.round ≤ engine'.state.round ∧ (own = true →
        (effects.filterMap Effect.votedRound).Pairwise (· ≤ ·) ∧
        ∀ round ∈ effects.filterMap Effect.votedRound,
          engine.state.round ≤ round ∧ round ≤ engine'.state.round))
  refl engine := ⟨[], by simp, .inr ⟨le_rfl, fun _ => ⟨.nil, by simp⟩⟩⟩
  trans := by
    rintro engine engine' engine'' ⟨effects, htrace, hfirst⟩ ⟨effects', htrace', hsecond⟩
    refine ⟨effects ++ effects', by rw [htrace', htrace, List.append_assoc], ?_⟩
    rcases hfirst with ⟨effect, hmem, hheight⟩ | ⟨hle, hfirst⟩
    · exact .inl ⟨effect, List.mem_append_left _ hmem, hheight⟩
    rcases hsecond with ⟨effect, hmem, hheight⟩ | ⟨hle', hsecond⟩
    · exact .inl ⟨effect, List.mem_append_right _ hmem, hheight⟩
    refine .inr ⟨hle.trans hle', ?_⟩
    intro hown
    rcases hfirst hown with ⟨hsorted, hbetween⟩
    rcases hsecond hown with ⟨hsorted', hbetween'⟩
    rw [List.filterMap_append]
    refine ⟨List.pairwise_append.mpr ⟨hsorted, hsorted', ?_⟩, ?_⟩
    · intro round hmem round' hmem'
      exact (hbetween round hmem).2.trans (hbetween' round' hmem').1
    · intro round hmem
      rcases List.mem_append.mp hmem with hmem | hmem
      · exact ⟨(hbetween round hmem).1, (hbetween round hmem).2.trans hle'⟩
      · exact ⟨hle.trans (hbetween' round hmem).1, (hbetween' round hmem).2⟩

variable {c config} {own : Bool} {engine engine' : Engine}

theorem forward_silent (htrace : engine'.trace = engine.trace)
    (hround : engine.state.round ≤ engine'.state.round) : (forward own).rel engine engine' :=
  ⟨[], by simp [htrace], .inr ⟨hround, fun _ => ⟨.nil, by simp⟩⟩⟩

/-- One effect, which is no vote or one that may be looked at. -/
theorem forward_append {effect : Effect} (htrace : engine'.trace = engine.trace ++ [effect])
    (hround : engine'.state.round = engine.state.round)
    (hvote : own = true → ∀ round ∈ effect.votedRound, round = engine.state.round) :
    (forward own).rel engine engine' := by
  refine ⟨[effect], htrace, .inr ⟨hround.ge, ?_⟩⟩
  intro hown
  cases hvoted : effect.votedRound with
  | none => simp [hvoted]
  | some round =>
      obtain rfl := hvote hown round hvoted
      simp [hvoted, hround]

theorem forward_handleProposal (msg : ProposalMessage) :
    Fallible.Respects (forward own) (handleProposal c config msg) := by
  intro engine
  refine (ends_handleProposal ((forward own).refl engine) ?_).final
  intro _ _ _ _
  exact forward_append rfl rfl (by simp [Effect.votedRound])

theorem forward_handleVote {type : VoteType} {msg : VoteMessage type} {check : Action Engine Unit}
    (hcheck : Silent check) (hround : own = true → msg.vote.round = engine.state.round) :
    (forward own).rel engine (Fallible.final (handleVote c config msg check engine)) := by
  refine (ends_handleVote (fun _ => (forward own).refl engine) ?_ ?_).final
  · intro address e _ _ _ _
    exact forward_silent rfl le_rfl
  · intro address power _ _ _ _
    refine (hcheck _).mono ?_ fun _ => False.elim
    rintro _ engine' ⟨hstate, htrace, -⟩
    refine forward_append htrace (by rw [hstate]; rfl) ?_
    intro hown round hvoted
    rw [votedRound_voteMessage] at hvoted
    rw [← Option.some.inj hvoted]
    exact hround hown

theorem forward_sendVote {type : VoteType} {check : VoteMessage type → Action Engine Unit}
    (hcheck : ∀ msg, Silent (check msg)) (blockHash : Option Hash) :
    Fallible.Respects (forward own) (sendVote c config type
      (fun msg => handleVote c config msg (check msg)) blockHash) := by
  intro engine
  refine (ends_sendVote (fun _ => (forward own).refl engine) ?_).final
  intro address msg _ _ _ hvote
  refine Fallible.ends_of_final (forward_handleVote (hcheck msg) ?_)
  intro _
  rw [hvote]

theorem forward_sendPrevoteMessage (blockHash : Option Hash) :
    Fallible.Respects (forward own) (sendPrevoteMessage c config blockHash) :=
  forward_sendVote (fun msg => silent_checkValidBlock msg.vote.height msg.vote.round) blockHash

theorem parts_forward : Parts c config (forward own) where
  idle hstate htrace _ := forward_silent htrace (by rw [hstate])
  setStep _ _ := forward_silent rfl le_rfl
  proposal := forward_handleProposal
  prevote := forward_sendPrevoteMessage none
  precommit := forward_sendVote fun _ => silent_pure
  lock _ _ := forward_silent rfl le_rfl
  validBlock _ _ _ := forward_silent rfl le_rfl
  newRound hround := forward_silent rfl hround.le

/-- Every event goes forward, and the votes of the node itself with it. -/
theorem forward_step (engine : Engine) (event : Event) :
    (forward event.message.isNone).rel engine (engine.step c config event) := by
  refine parts_forward.step engine event ?_ ?_ ?_ ?_ ?_
  · intro task queue _
    exact forward_silent rfl le_rfl
  · rintro msg rfl
    cases msg with
    | proposal msg => exact forward_handleProposal msg engine
    | prevote msg => exact forward_handleVote (silent_checkValidBlock _ _) nofun
    | precommit msg => exact forward_handleVote silent_pure nofun
  · intro world queue _ _ _ _
    exact Parts.doPropose forward_sendPrevoteMessage world _
  · intro queue vote block _ _
    exact forward_append rfl rfl (by simp [Effect.votedRound])
  · intro queue height _ _ _
    exact ⟨[.newHeight height engine.validatorSet], rfl, .inl ⟨_, List.mem_singleton_self _, rfl⟩⟩

/-- The rounds in which the node has voted are in order, and none is after the current one. -/
structure Voter.Ordered (voter : Voter) : Prop where
  sorted : voter.rounds.Pairwise (· ≤ ·)
  current : ∀ round ∈ voter.rounds, round ≤ voter.engine.state.round

theorem Voter.Ordered.step {voter : Voter} (h : voter.Ordered) (event : Event) :
    (voter.step c config event).Ordered := by
  rcases @forward_step c config voter.engine event with ⟨effects, htrace, hforward⟩
  have hadded : added c config voter.engine event = effects := by
    rw [added, htrace]
    exact List.drop_left
  unfold Voter.step
  rw [castRounds, hadded]
  -- a new height starts over, within a height the rounds go on from those voted in
  rcases hforward with ⟨effect, hmem, hheight⟩ | ⟨hle, hvotes⟩
  · have hany : (effects.any fun effect => effect.newHeight?.isSome) = true :=
      List.any_eq_true.mpr ⟨effect, hmem, hheight⟩
    rw [if_pos hany]
    exact ⟨.nil, by simp⟩
  · split
    · exact ⟨.nil, by simp⟩
    · cases hmessage : event.message with
      | some msg =>
          rw [List.append_nil]
          exact ⟨h.sorted, fun round hmem => (h.current round hmem).trans hle⟩
      | none =>
          rcases hvotes (by rw [hmessage]; rfl) with ⟨hsorted, hbetween⟩
          refine ⟨List.pairwise_append.mpr ⟨h.sorted, hsorted, ?_⟩, ?_⟩
          · intro round hmem round' hmem'
            exact (h.current round hmem).trans (hbetween round' hmem').1
          · intro round hmem
            rcases List.mem_append.mp hmem with hmem | hmem
            · exact (h.current round hmem).trans hle
            · exact (hbetween round hmem).2

end Forward

/-- In every run of a node, whatever messages it gets: at a height it passes on at most one prevote and
at most one precommit that it has signed for each round, and the rounds in which it votes never
decrease. -/
theorem votes_once_and_forward (c : Crypto) (config : Config) (initialValidatorSet : ValidatorSet)
    (events : List Event) :
    Throughout (Voter.step c config) (Voter.new c initialValidatorSet) events fun voter =>
      (∀ type, (votesSince type voter.engine.trace).Pairwise fun msg msg' =>
        SignedHere c config msg → SignedHere c config msg' → msg.vote.round ≠ msg'.vote.round) ∧
      voter.rounds.Pairwise (· ≤ ·) := by
  have hinv : Throughout (Voter.step c config) (Voter.new c initialValidatorSet) events fun voter =>
      Single c config voter.engine.state voter.engine.trace ∧ voter.Ordered := by
    refine throughout ⟨single_new initialValidatorSet, .nil, nofun⟩ ?_ events
    intro voter event hvoter
    exact ⟨hvoter.1.step event, hvoter.2.step event⟩
  intro before after hevents
  rcases hinv before after hevents with ⟨hsingle, hordered⟩
  refine ⟨?_, hordered.sorted⟩
  intro type
  refine (hsingle.once type).imp ?_
  rintro msg msg' hdiffer ⟨address, haddress, hsigner⟩ ⟨address', haddress', hsigner'⟩
  obtain rfl := Option.mem_unique haddress haddress'
  exact hdiffer address hsigner hsigner'

/-- A validator on its own prevotes and precommits in the first round. -/
example : (Nodes.validatorRun.foldl
    (Voter.step .transparent (Nodes.validatorAndObserver.config true))
    (Voter.new .transparent soleValidatorSet)).rounds = [1, 1] := by decide +kernel

end ChainCore
end UniqysKit
