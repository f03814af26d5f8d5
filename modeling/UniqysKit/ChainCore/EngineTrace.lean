import UniqysKit.ChainCore.EngineParts

/-!
# What an event adds to the trace

The trace only grows.  `emits_step` is for showing of all that an event adds that it is allowed:
the message it brings, what the node signs itself, and what `doPropose` does, which is left to the
caller.
-/

namespace UniqysKit
namespace ChainCore

open Library Engine

/-- What an event adds to the trace. -/
def added (c : Crypto) (config : Config) (engine : Engine) (event : Event) : List Effect :=
  (engine.step c config event).trace.drop engine.trace.length

section Emits

variable {c : Crypto} {config : Config} {allowed : Effect → Prop}

/-- The trace grows by allowed effects. -/
abbrev emits (allowed : Effect → Prop) : Fallible.Progress Engine :=
  Fallible.Progress.appending Engine.trace allowed

/-- The action adds nothing to the trace that is not allowed. -/
abbrev Emits (allowed : Effect → Prop) {α : Type} (x : Action Engine α) : Prop :=
  Fallible.Respects (emits allowed) x

variable (c config) in
/-- The node has signed the vote. -/
def SignedHere {type : VoteType} (msg : VoteMessage type) : Prop :=
  ∃ address ∈ config.address c, msg.signerAddress c (config.genesisHash c) = .ok address

variable (c config) in
/-- All is allowed that the node does outside of `doPropose`. -/
structure Tolerates (allowed : Effect → Prop) : Prop where
  proposal : ∀ msg, allowed (.gossip (.proposal msg))
  prevote : ∀ msg : PrevoteMessage, SignedHere c config msg → msg.vote.blockHash = Hash.zero →
    allowed (.gossip (.prevote msg))
  precommit : ∀ msg : PrecommitMessage, SignedHere c config msg → allowed (.gossip (.precommit msg))
  commitBlock : ∀ height block consensus, allowed (.commitBlock height block consensus)
  newHeight : ∀ height validatorSet, allowed (.newHeight height validatorSet)

theorem emits_of_trace_eq {engine engine' : Engine} (h : engine'.trace = engine.trace) :
    (emits allowed).rel engine engine' :=
  ⟨[], by rw [h, List.append_nil], by simp⟩

theorem emits_of_append {engine engine' : Engine} {effect : Effect} (hallowed : allowed effect)
    (h : engine'.trace = engine.trace ++ [effect]) : (emits allowed).rel engine engine' :=
  ⟨[effect], h, by simpa using hallowed⟩

theorem emits_handleProposal {msg : ProposalMessage} (h : allowed (.gossip (.proposal msg))) :
    Emits allowed (handleProposal c config msg) := by
  intro engine
  refine (ends_handleProposal ((emits allowed).refl engine) ?_).final
  intro _ _ _ _
  exact emits_of_append h rfl

theorem emits_handleVote {type : VoteType} {msg : VoteMessage type} {check : Action Engine Unit}
    (hcheck : Silent check) (h : allowed (.gossip (voteMessage msg))) :
    Emits allowed (handleVote c config msg check) := by
  intro engine
  refine (ends_handleVote (fun _ => (emits allowed).refl engine) ?_ ?_).final
  · intro address e _ _ _ _
    exact emits_of_trace_eq rfl
  · intro address power _ _ _ _
    refine (hcheck _).mono ?_ fun _ => False.elim
    rintro _ engine' ⟨-, htrace, -⟩
    exact emits_of_append h htrace

theorem emits_newConsensusMessage {msg : ConsensusMessage} (h : allowed (.gossip msg)) :
    Emits allowed (newConsensusMessage c config msg) := by
  cases msg with
  | proposal msg => exact emits_handleProposal h
  | prevote msg => exact emits_handleVote (silent_checkValidBlock _ _) h
  | precommit msg => exact emits_handleVote silent_pure h

theorem emits_sendVote {type : VoteType} {check : VoteMessage type → Action Engine Unit}
    (hcheck : ∀ msg, Silent (check msg)) {blockHash : Option Hash}
    (h : ∀ msg : VoteMessage type, SignedHere c config msg →
      msg.vote.blockHash = blockHash.getD Hash.zero → allowed (.gossip (voteMessage msg))) :
    Emits allowed (sendVote c config type
      (fun msg => handleVote c config msg (check msg)) blockHash) := by
  intro engine
  refine (ends_sendVote (fun _ => (emits allowed).refl engine) ?_).final
  intro address msg _ ha hsigner hvote
  refine Fallible.ends_of_final (emits_handleVote (hcheck msg) (h msg ⟨address, ha, hsigner⟩ ?_) engine)
  rw [hvote]

theorem emits_sendPrevoteMessage {blockHash : Option Hash}
    (h : ∀ msg : PrevoteMessage, SignedHere c config msg →
      msg.vote.blockHash = blockHash.getD Hash.zero → allowed (.gossip (.prevote msg))) :
    Emits allowed (sendPrevoteMessage c config blockHash) :=
  emits_sendVote (fun msg => silent_checkValidBlock msg.vote.height msg.vote.round) h

/-- What `doPropose` adds, where all prevotes of the node are allowed. -/
theorem emits_doPropose (h : ∀ msg : PrevoteMessage, SignedHere c config msg →
    allowed (.gossip (.prevote msg))) (world : World) : Emits allowed (doPropose c config world) :=
  Parts.doPropose (fun _ => emits_sendPrevoteMessage fun msg hsigned _ => h msg hsigned) world

theorem parts_emits (h : Tolerates c config allowed) : Parts c config (emits allowed) where
  idle _ htrace _ := emits_of_trace_eq htrace
  setStep _ _ := emits_of_trace_eq rfl
  proposal msg := emits_handleProposal (h.proposal msg)
  prevote := emits_sendPrevoteMessage h.prevote
  precommit _ := emits_sendVote (fun _ => silent_pure) fun msg hsigned _ => h.precommit msg hsigned
  lock _ _ := emits_of_trace_eq rfl
  validBlock _ _ _ := emits_of_trace_eq rfl
  newRound _ := emits_of_trace_eq rfl

/-- The message that an event brings. -/
def Event.message : Event → Option ConsensusMessage
  | .newConsensusMessage msg => some msg
  | _ => none

/-- What an event adds to the trace is allowed, if that is so of the message it brings and of what
`doPropose` does. -/
theorem emits_step (h : Tolerates c config allowed) (engine : Engine) (event : Event)
    (hmessage : ∀ msg, event.message = some msg → allowed (.gossip msg))
    (hpropose : ∀ world queue, event = .acquire world → engine.holder = none →
      engine.queue = .proceedConsensus :: queue → engine.state.step = .propose →
      (emits allowed).rel { engine with queue }
        (Fallible.final (doPropose c config world { engine with queue }))) :
    (emits allowed).rel engine (engine.step c config event) := by
  refine (parts_emits h).step engine event ?_ ?_ hpropose ?_ ?_
  · intro task queue _
    exact emits_of_trace_eq rfl
  · rintro msg rfl
    exact emits_newConsensusMessage (hmessage msg rfl) engine
  · intro queue vote block _ _
    exact emits_of_append (h.commitBlock _ _ _) rfl
  · intro queue height _ _ _
    exact emits_of_append (h.newHeight height engine.validatorSet) rfl

end Emits

/-! ## Where votes come from -/

section Origin

variable {c : Crypto} {config : Config}

variable (c config) in
/-- If the message is a vote, the node has signed it. -/
def Ours (msg : ConsensusMessage) : Prop :=
  ∀ (type : VoteType) (vote : VoteMessage type), msg = voteMessage vote → SignedHere c config vote

theorem ours_proposal (msg : ProposalMessage) : Ours c config (.proposal msg) := by
  intro type vote heq
  cases type with
  | prevote => cases heq
  | precommit => cases heq

theorem ours_vote {type : VoteType} {vote : VoteMessage type} (hsigned : SignedHere c config vote) :
    Ours c config (voteMessage vote) := by
  intro type' vote' heq
  rcases voteMessage_inj heq with ⟨rfl, hvote⟩
  obtain rfl := eq_of_heq hvote
  exact hsigned

/-- The trace grows, and the messages that an event adds to it are the one it brings and those of the
node itself. -/
theorem trace_step (engine : Engine) (event : Event) :
    engine.trace <+: (engine.step c config event).trace ∧
      ∀ msg, .gossip msg ∈ (engine.step c config event).trace →
        .gossip msg ∈ engine.trace ∨ event.message = some msg ∨ Ours c config msg := by
  let allowed : Effect → Prop := fun effect =>
    ∀ msg, effect = .gossip msg → event.message = some msg ∨ Ours c config msg
  have hvote : ∀ {type : VoteType} (vote : VoteMessage type), SignedHere c config vote →
      allowed (.gossip (voteMessage vote)) := by
    rintro type vote hsigned _ ⟨⟩
    exact .inr (ours_vote hsigned)
  -- what a node signs is its own, and it passes on only what has come with the event
  have htolerates : Tolerates c config allowed := by
    refine ⟨?_, fun msg hsigned _ => hvote msg hsigned, fun msg hsigned => hvote msg hsigned,
      nofun, nofun⟩
    rintro msg _ ⟨⟩
    exact .inr (ours_proposal msg)
  obtain ⟨added, htrace, hall⟩ := emits_step htolerates engine event
    (by rintro msg hmsg _ ⟨⟩; exact .inl hmsg)
    (fun world queue _ _ _ _ => emits_doPropose (fun msg hsigned => hvote msg hsigned) world _)
  rw [htrace]
  refine ⟨List.prefix_append _ _, ?_⟩
  intro msg hmem
  rcases List.mem_append.mp hmem with hold | hnew
  · exact .inl hold
  · exact .inr (hall _ hnew msg rfl)

end Origin

end ChainCore
end UniqysKit
