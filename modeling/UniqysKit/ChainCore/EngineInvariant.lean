import UniqysKit.ChainCore.VoteCount

/-!
# What an engine keeps to at one height

`Invariant` is about one height `h`, entered once with the validator set `vs`.  Its first part,
`Rules`, speaks of the trace only, so it stays true when the engine has left the height: one vote of
a kind in a round, a precommit only after a majority of prevotes, and the rule of the lock.  The
second part, `Current`, ties the fields of the engine to the trace while it is at the height.

The node's own votes come from its own code and from nowhere else: `Genuine` says so of the messages
it gets.
-/

namespace UniqysKit
namespace ChainCore

open Library

/-! ## Votes in a trace -/

section Definitions

variable (c : Crypto) (genesis : Hash) (h : Nat) (vs : ValidatorSet)

/-- A vote of the address was given to the others. -/
def Cast (trace : List Effect) (type : VoteType) (address : Address) (vote : Vote) : Prop :=
  ∃ msg : VoteMessage type, .gossip (voteMessage msg) ∈ trace ∧
    msg.signerAddress c genesis = .ok address ∧ msg.vote = vote

/-- Votes for a block that were given to the others pass for two thirds of the power. -/
def Seen (trace : List Effect) (type : VoteType) (round : Nat) (blockHash : Hash) : Prop :=
  ∃ voters : List Address, voters.Nodup ∧ vs.Passes (Doubles.sum (voters.map vs.weight)) ∧
    ∀ a ∈ voters, Cast c genesis trace type a ⟨h, round, blockHash⟩

/-- The validator sets with which the height was entered. -/
def entered (trace : List Effect) : List ValidatorSet :=
  trace.filterMap fun
    | .newHeight height validatorSet => if height = h then some validatorSet else none
    | _ => none

/-- The height was entered once at most, with the validator set. -/
def EntersOnce (trace : List Effect) : Prop := entered h trace <+: [vs]

/-- What the votes and commits in a trace keep to; `own` is the address of the node. -/
structure Rules (own : Option Address) (trace : List Effect) : Prop where
  once : ∀ type a round b b', Cast c genesis trace type a ⟨h, round, b⟩ →
    Cast c genesis trace type a ⟨h, round, b'⟩ → b = b'
  justified : ∀ a ∈ own, ∀ round b, b ≠ Hash.zero →
    Cast c genesis trace .precommit a ⟨h, round, b⟩ → Seen c genesis h vs trace .prevote round b
  locked : ∀ a ∈ own, ∀ round round' b b', b ≠ Hash.zero → b' ≠ Hash.zero →
    Cast c genesis trace .precommit a ⟨h, round, b⟩ →
    Cast c genesis trace .prevote a ⟨h, round', b'⟩ → round < round' →
      ∃ since, round ≤ since ∧ since < round' ∧ Seen c genesis h vs trace .prevote since b'
  committed : ∀ block consensus, .commitBlock h block consensus ∈ trace →
    ∃ round, Seen c genesis h vs trace .precommit round (block.hash c)

/-- The places where `doNewRound` waits. -/
def Await.Proposing : Await → Prop
  | .lastBlock => True
  | .newRoundTransactions => True
  | .proposeTransactions => True
  | .lastConsensus _ => True
  | .sendProposalMessage => True
  | _ => False

/-- What holds while a task awaits something. -/
def Await.Ready (state : State) (await : Await) : Prop :=
  state.step ≠ .precommitWait ∧ (await.Proposing → state.lockedRound < state.round)

/-- The state of the engine while it is at the height. -/
structure Current (own : Option Address) (state : State) (trace : List Effect) : Prop where
  validatorSet : state.validatorSet = vs
  counted : ∀ type round,
    ((state.roundStateOf round).votes type).Counted c genesis h vs round
  cast_recorded : ∀ type a round b, Cast c genesis trace type a ⟨h, round, b⟩ →
    ∃ msg, (a, msg) ∈ ((state.roundStateOf round).votes type).messageOfValidator ∧
      msg.vote = ⟨h, round, b⟩
  recorded_cast : ∀ type round, ∀ entry ∈ ((state.roundStateOf round).votes type).messageOfValidator,
    0 < vs.weight entry.1 → Cast c genesis trace type entry.1 entry.2.vote
  proposal : ∀ round, ∀ msg ∈ (state.roundStateOf round).proposal,
    msg.proposal.lockedRound = 0 ∨ msg.proposal.lockedRound < round
  round_pos : 0 < state.round
  locked_le : state.lockedRound ≤ state.round
  locked_lt : state.step = .newRound ∨ state.step = .propose → state.lockedRound < state.round
  locked_seen : ∀ block ∈ state.lockedBlock,
    Seen c genesis h vs trace .prevote state.lockedRound (block.hash c)
  own_round : ∀ a ∈ own, ∀ type round b, Cast c genesis trace type a ⟨h, round, b⟩ →
    round ≤ state.round
  own_locked : ∀ a ∈ own, ∀ round b, b ≠ Hash.zero →
    Cast c genesis trace .precommit a ⟨h, round, b⟩ → 0 < round ∧ round ≤ state.lockedRound

/-- The invariant, on the parts of the engine it is about. -/
structure Invariant (own : Option Address) (state : State) (trace : List Effect)
    (holder : Option (Task × Await)) : Prop where
  rules : Rules c genesis h vs own trace
  before : entered h trace = [] → state.height ≠ h ∧
    ∀ type a round b, ¬ Cast c genesis trace type a ⟨h, round, b⟩
  current : state.height = h → Current c genesis h vs own state trace
  held : state.height = h → ∀ task await, holder = some (task, await) → await.Ready state

end Definitions

/-! ## Growing traces -/

section Traces

variable {c : Crypto} {genesis : Hash} {h : Nat} {vs : ValidatorSet} {own : Option Address}
  {trace : List Effect}

theorem Cast.mono {trace' : List Effect} {type : VoteType} {a : Address} {vote : Vote}
    (hcast : Cast c genesis trace type a vote) (hsub : trace ⊆ trace') :
    Cast c genesis trace' type a vote := by
  rcases hcast with ⟨msg, hmem, hmsg⟩
  exact ⟨msg, hsub hmem, hmsg⟩

theorem Seen.mono {trace' : List Effect} {type : VoteType} {round : Nat} {b : Hash}
    (hseen : Seen c genesis h vs trace type round b) (hsub : trace ⊆ trace') :
    Seen c genesis h vs trace' type round b := by
  rcases hseen with ⟨voters, hnodup, hpasses, hcast⟩
  exact ⟨voters, hnodup, hpasses, fun a ha => (hcast a ha).mono hsub⟩

theorem voteMessage_inj {type type' : VoteType} {msg : VoteMessage type} {msg' : VoteMessage type'}
    (heq : voteMessage msg = voteMessage msg') : type = type' ∧ HEq msg msg' := by
  cases type with
  | prevote =>
      cases type' with
      | prevote =>
          cases heq
          exact ⟨rfl, HEq.rfl⟩
      | precommit => cases heq
  | precommit =>
      cases type' with
      | prevote => cases heq
      | precommit =>
          cases heq
          exact ⟨rfl, HEq.rfl⟩

/-- The votes after one more message. -/
theorem cast_append_vote {type type' : VoteType} {msg : VoteMessage type} {a : Address} {vote : Vote}
    (hcast : Cast c genesis (trace ++ [.gossip (voteMessage msg)]) type' a vote) :
    Cast c genesis trace type' a vote ∨
      type' = type ∧ msg.signerAddress c genesis = .ok a ∧ msg.vote = vote := by
  rcases hcast with ⟨msg', hmem, hsigner, hvote⟩
  rcases List.mem_append.mp hmem with hold | hnew
  · exact .inl ⟨msg', hold, hsigner, hvote⟩
  · have heq := Effect.gossip.inj (List.mem_singleton.mp hnew)
    rcases voteMessage_inj heq with ⟨rfl, hmsg⟩
    obtain rfl := eq_of_heq hmsg
    exact .inr ⟨rfl, hsigner, hvote⟩

/-- The effect is no vote and no commit of the height. -/
def Effect.Elsewhere (h : Nat) : Effect → Prop
  | .gossip (.proposal _) => True
  | .gossip (.prevote msg) => msg.vote.height ≠ h
  | .gossip (.precommit msg) => msg.vote.height ≠ h
  | .commitBlock height _ _ => height ≠ h
  | .newHeight _ _ => True

theorem cast_append_elsewhere {effect : Effect} (helse : effect.Elsewhere h) {type : VoteType}
    {a : Address} {round : Nat} {b : Hash}
    (hcast : Cast c genesis (trace ++ [effect]) type a ⟨h, round, b⟩) :
    Cast c genesis trace type a ⟨h, round, b⟩ := by
  rcases hcast with ⟨msg, hmem, hsigner, hvote⟩
  rcases List.mem_append.mp hmem with hold | hnew
  · exact ⟨msg, hold, hsigner, hvote⟩
  · obtain rfl := List.mem_singleton.mp hnew
    -- a vote of the height is not elsewhere
    have hheight : msg.vote.height = h := by rw [hvote]
    cases type with
    | prevote => exact absurd hheight helse
    | precommit => exact absurd hheight helse

/-- Effects that bring no vote of the height keep the rules, if commits are backed. -/
theorem Rules.append (hrules : Rules c genesis h vs own trace) {effect : Effect}
    (hcast : ∀ type a round b, Cast c genesis (trace ++ [effect]) type a ⟨h, round, b⟩ →
      Cast c genesis trace type a ⟨h, round, b⟩)
    (hcommit : ∀ block consensus, effect = .commitBlock h block consensus →
      ∃ round, Seen c genesis h vs trace .precommit round (block.hash c)) :
    Rules c genesis h vs own (trace ++ [effect]) := by
  have hsub : trace ⊆ trace ++ [effect] := List.subset_append_left _ _
  refine ⟨?_, ?_, ?_, ?_⟩
  · intro type a round b b' hb hb'
    exact hrules.once type a round b b' (hcast _ _ _ _ hb) (hcast _ _ _ _ hb')
  · intro a ha round b hne hb
    exact (hrules.justified a ha round b hne (hcast _ _ _ _ hb)).mono hsub
  · intro a ha round round' b b' hne hne' hb hb' hlt
    obtain ⟨since, hle, hlt', hseen⟩ := hrules.locked a ha round round' b b' hne hne'
      (hcast _ _ _ _ hb) (hcast _ _ _ _ hb') hlt
    exact ⟨since, hle, hlt', hseen.mono hsub⟩
  · intro block consensus hmem
    rcases List.mem_append.mp hmem with hold | hnew
    · rcases hrules.committed block consensus hold with ⟨round, hseen⟩
      exact ⟨round, hseen.mono hsub⟩
    · rcases hcommit block consensus (List.mem_singleton.mp hnew).symm with ⟨round, hseen⟩
      exact ⟨round, hseen.mono hsub⟩

theorem Rules.append_elsewhere (hrules : Rules c genesis h vs own trace) {effect : Effect}
    (helse : effect.Elsewhere h) : Rules c genesis h vs own (trace ++ [effect]) := by
  refine hrules.append (fun _ _ _ _ => cast_append_elsewhere helse) ?_
  rintro block consensus rfl
  exact absurd rfl helse

/-- A trace with other effects, seen from the state. -/
theorem Current.mono {state : State} {trace' : List Effect}
    (hcurrent : Current c genesis h vs own state trace) (hsub : trace ⊆ trace')
    (hcast : ∀ type a round b, Cast c genesis trace' type a ⟨h, round, b⟩ →
      Cast c genesis trace type a ⟨h, round, b⟩) : Current c genesis h vs own state trace' where
  validatorSet := hcurrent.validatorSet
  counted := hcurrent.counted
  cast_recorded type a round b hb := hcurrent.cast_recorded type a round b (hcast _ _ _ _ hb)
  recorded_cast type round entry hentry hweight :=
    (hcurrent.recorded_cast type round entry hentry hweight).mono hsub
  proposal := hcurrent.proposal
  round_pos := hcurrent.round_pos
  locked_le := hcurrent.locked_le
  locked_lt := hcurrent.locked_lt
  locked_seen block hblock := (hcurrent.locked_seen block hblock).mono hsub
  own_round a ha type round b hb := hcurrent.own_round a ha type round b (hcast _ _ _ _ hb)
  own_locked a ha round b hne hb := hcurrent.own_locked a ha round b hne (hcast _ _ _ _ hb)

end Traces

/-! ## One more vote -/

section Votes

variable {c : Crypto} {genesis : Hash} {h : Nat} {vs : ValidatorSet} {own : Option Address}
  {state : State} {trace : List Effect} {type : VoteType} {msg : VoteMessage type}
  {address : Address}

variable (c genesis h vs) in
/-- What the node's own next vote keeps to: it is for the current round, a prevote for a block obeys
the lock, and a precommit for a block goes with locking it. -/
def OwnVote (state : State) (trace : List Effect) (type : VoteType) (vote : Vote) : Prop :=
  vote.round = state.round ∧ (vote.blockHash ≠ Hash.zero →
    match type with
    | .prevote => state.lockedRound = 0 ∨ ∃ since, state.lockedRound ≤ since ∧
        since < state.round ∧ Seen c genesis h vs trace .prevote since vote.blockHash
    | .precommit => state.lockedRound = state.round ∧
        Seen c genesis h vs trace .prevote state.round vote.blockHash)

/-- A vote of the height that was not recorded yet keeps the rules. -/
theorem Rules.append_vote (hrules : Rules c genesis h vs own trace)
    (hcurrent : Current c genesis h vs own state trace)
    (hsigner : msg.signerAddress c genesis = .ok address)
    (hhas : ¬ ((state.roundStateOf msg.vote.round).votes type).has address = true)
    (hown : address ∈ own → OwnVote c genesis h vs state trace type msg.vote) :
    Rules c genesis h vs own (trace ++ [.gossip (voteMessage msg)]) := by
  have hsub : trace ⊆ trace ++ [.gossip (voteMessage msg)] := List.subset_append_left _ _
  -- of the signer there was no vote in the round before
  have hfresh : ∀ b, ¬ Cast c genesis trace type address ⟨h, msg.vote.round, b⟩ := by
    intro b hcast
    rcases hcurrent.cast_recorded type address msg.vote.round b hcast with ⟨msg', hmem, -⟩
    exact hhas (VoteSet.has_iff.mpr ⟨msg', hmem⟩)
  have hsame : ∀ {a}, msg.signerAddress c genesis = .ok a → a = address := by
    intro a ha
    rw [hsigner] at ha
    exact (Except.ok.inj ha).symm
  refine ⟨?_, ?_, ?_, ?_⟩
  · intro type' a round b b' hb hb'
    rcases cast_append_vote hb with hold | ⟨rfl, ha, hvote⟩
    · rcases cast_append_vote hb' with hold' | ⟨rfl, ha', hvote'⟩
      · exact hrules.once type' a round b b' hold hold'
      · obtain rfl := hsame ha'
        rw [hvote'] at hfresh
        exact absurd hold (hfresh b)
    · obtain rfl := hsame ha
      rcases cast_append_vote hb' with hold' | ⟨-, -, hvote'⟩
      · rw [hvote] at hfresh
        exact absurd hold' (hfresh b')
      · have heq := hvote.symm.trans hvote'
        exact (Vote.mk.inj heq).2.2
  · intro a ha round b hne hb
    rcases cast_append_vote hb with hold | ⟨rfl, hsigner', hvote⟩
    · exact (hrules.justified a ha round b hne hold).mono hsub
    · obtain rfl := hsame hsigner'
      rcases hown ha with ⟨hround, hrule⟩
      rw [hvote] at hround hrule
      rcases hrule hne with ⟨-, hseen⟩
      rw [← hround] at hseen
      exact hseen.mono hsub
  · intro a ha round round' b b' hne hne' hb hb' hlt
    rcases cast_append_vote hb with hold | ⟨rfl, hsigner', hvote⟩
    · rcases cast_append_vote hb' with hold' | ⟨rfl, hsigner', hvote'⟩
      · obtain ⟨since, hle, hlt', hseen⟩ :=
          hrules.locked a ha round round' b b' hne hne' hold hold' hlt
        exact ⟨since, hle, hlt', hseen.mono hsub⟩
      · -- a new prevote: the lock is not older than the precommit
        obtain rfl := hsame hsigner'
        rcases hown ha with ⟨hround, hrule⟩
        rw [hvote'] at hround hrule
        have hround' : round' = state.round := hround
        rcases hcurrent.own_locked a ha round b hne hold with ⟨hpos, hle⟩
        rcases hrule hne' with hzero | ⟨since, hsince, hlt', hseen⟩
        · omega
        · exact ⟨since, hle.trans hsince, hround' ▸ hlt', hseen.mono hsub⟩
    · -- a new precommit: there are no prevotes of later rounds yet
      obtain rfl := hsame hsigner'
      rcases hown ha with ⟨hround, -⟩
      rw [hvote] at hround
      have hround' : round = state.round := hround
      rcases cast_append_vote hb' with hold' | ⟨htype, -, -⟩
      · have hle := hcurrent.own_round a ha .prevote round' b' hold'
        omega
      · cases htype
  · intro block consensus hmem
    rcases List.mem_append.mp hmem with hold | hnew
    · rcases hrules.committed block consensus hold with ⟨round, hseen⟩
      exact ⟨round, hseen.mono hsub⟩
    · cases List.mem_singleton.mp hnew

/-- The state with one more recorded vote. -/
theorem Current.record (hcurrent : Current c genesis h vs own state trace)
    (hsigner : msg.signerAddress c genesis = .ok address) (hheight : msg.vote.height = h)
    {set : VoteSet type}
    (hmessages : set.messageOfValidator =
      ((state.roundStateOf msg.vote.round).votes type).messageOfValidator ++ [(address, msg)])
    (hcounted : set.Counted c genesis h vs msg.vote.round) {trace' : List Effect}
    (hsub : trace ⊆ trace')
    (hcast : ∀ type' a vote, Cast c genesis trace' type' a vote → Cast c genesis trace type' a vote ∨
      type' = type ∧ msg.signerAddress c genesis = .ok a ∧ msg.vote = vote ∧ 0 < vs.weight address)
    (hnew : 0 < vs.weight address → Cast c genesis trace' type address msg.vote)
    (hown : address ∈ own → 0 < vs.weight address →
      OwnVote c genesis h vs state trace type msg.vote) :
    Current c genesis h vs own (state.setRoundState msg.vote.round
      ((state.roundStateOf msg.vote.round).setVotes type set)) trace' := by
  have hsame : ∀ {a}, msg.signerAddress c genesis = .ok a → a = address := by
    intro a ha
    rw [hsigner] at ha
    exact (Except.ok.inj ha).symm
  -- where the vote sets have changed, and where not
  have hvotes : ∀ type' round, (type' = type ∧ round = msg.vote.round) ∨
      ((state.setRoundState msg.vote.round
        ((state.roundStateOf msg.vote.round).setVotes type set)).roundStateOf round).votes type' =
          (state.roundStateOf round).votes type' :=
    State.votes_setVotes state msg.vote.round type set
  refine ⟨hcurrent.validatorSet, ?_, ?_, ?_, ?_, hcurrent.round_pos, hcurrent.locked_le,
    hcurrent.locked_lt, fun block hblock => (hcurrent.locked_seen block hblock).mono hsub, ?_, ?_⟩
  · intro type' round
    rcases hvotes type' round with ⟨rfl, rfl⟩ | heq
    · rw [State.roundStateOf_setRoundState, RoundState.votes_setVotes]
      exact hcounted
    · rw [heq]
      exact hcurrent.counted type' round
  · intro type' a round b hb
    rcases hcast _ _ _ hb with hold | ⟨rfl, ha, hvote, -⟩
    · rcases hcurrent.cast_recorded type' a round b hold with ⟨msg', hmem, hvote⟩
      refine ⟨msg', ?_, hvote⟩
      rcases hvotes type' round with ⟨rfl, rfl⟩ | heq
      · rw [State.roundStateOf_setRoundState, RoundState.votes_setVotes, hmessages]
        exact List.mem_append_left _ hmem
      · rw [heq]
        exact hmem
    · obtain rfl := hsame ha
      obtain rfl : msg.vote.round = round := by rw [hvote]
      refine ⟨msg, ?_, hvote⟩
      rw [State.roundStateOf_setRoundState, RoundState.votes_setVotes, hmessages]
      exact List.mem_append_right _ (List.mem_singleton.mpr rfl)
  · intro type' round entry hentry hweight
    rcases hvotes type' round with ⟨rfl, rfl⟩ | heq
    · rw [State.roundStateOf_setRoundState, RoundState.votes_setVotes, hmessages] at hentry
      rcases List.mem_append.mp hentry with hold | hlast
      · exact (hcurrent.recorded_cast type' _ entry hold hweight).mono hsub
      · obtain rfl := List.mem_singleton.mp hlast
        exact hnew hweight
    · rw [heq] at hentry
      exact (hcurrent.recorded_cast type' round entry hentry hweight).mono hsub
  · intro round msg' hmsg'
    refine hcurrent.proposal round msg' ?_
    by_cases hround : round = msg.vote.round
    · subst hround
      rwa [State.roundStateOf_setRoundState, RoundState.proposal_setVotes] at hmsg'
    · rwa [State.roundStateOf_setRoundState_of_ne _ hround] at hmsg'
  · intro a ha type' round b hb
    rcases hcast _ _ _ hb with hold | ⟨rfl, hsigner', hvote, hweight⟩
    · exact hcurrent.own_round a ha type' round b hold
    · obtain rfl := hsame hsigner'
      have hround := (hown ha hweight).1
      rw [hvote] at hround
      exact hround.le
  · intro a ha round b hne hb
    rcases hcast _ _ _ hb with hold | ⟨rfl, hsigner', hvote, hweight⟩
    · exact hcurrent.own_locked a ha round b hne hold
    · obtain rfl := hsame hsigner'
      rcases hown ha hweight with ⟨hround, hrule⟩
      rw [hvote] at hround hrule
      have hround' : round = state.round := hround
      have hlocked := (hrule hne).1
      have hpos := hcurrent.round_pos
      exact ⟨by omega, by rw [hround']; exact hlocked.symm.le⟩

end Votes

end ChainCore
end UniqysKit
