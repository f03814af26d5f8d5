import UniqysKit.ChainCore.ProposeStep

/-!
# The waiting steps

A node that has votes of more than two thirds of the power, but not for one block, waits for more in
the PrevoteWait or the PrecommitWait step.  Nothing may come any more, so it is the timeout that takes
it on.  The timeouts run without the lock, at any time between the other events, and each is for one
round of one height; still the timeout of the round is there as long as the node waits
(`timeouts_release`).

The prevote timeout is used up when it cannot send the precommit, so a node must be able to vote when
it runs off.
-/

namespace UniqysKit
namespace ChainCore

open Library Engine

/-- A prevote timeout runs off. -/
def Event.isPrevoteTimer : Event → Bool
  | .timeout (.prevote _ _) => true
  | _ => false

section Definitions

variable (c : Crypto) (config : Config)

/-- The timeout of the round is set where the node waits; that of the Prevote step may also be sending
the precommit. -/
structure HasTimeout (engine : Engine) : Prop where
  prevote : engine.state.step = .prevoteWait →
    .prevote engine.state.height engine.state.round ∈ engine.timers ∨ 0 < engine.prevoteTimeouts
  precommit : engine.state.step = .precommitWait →
    .precommit engine.state.height engine.state.round ∈ engine.timers

/-- A node that waits for prevotes can vote when a prevote timeout runs off. -/
def CanVoteAtTimeout (engine : Engine) (event : Event) : Prop :=
  event.isPrevoteTimer = true → engine.state.step = .prevoteWait → CanVote c config engine

/-- The timeouts of the round take the node on: to the next round, or to the Precommit step. -/
structure Released (engine : Engine) : Prop where
  precommit : engine.state.step = .precommitWait →
    (engine.step c config (.timeout (.precommit engine.state.height engine.state.round))).state.round =
      engine.state.round + 1
  prevote : engine.state.step = .prevoteWait → CanVote c config engine →
    (engine.run c config [.timeout (.prevote engine.state.height engine.state.round),
      .prevoteTimeout]).state.step = .precommit

end Definitions

/-! ## The code outside of the timeouts -/

/-- A timeout that is there stays. -/
def waiting : Fallible.Progress Engine where
  rel engine engine' := HasTimeout engine → HasTimeout engine'
  refl _ := id
  trans h h' := h' ∘ h

section Code

variable {c : Crypto} {config : Config} {engine engine' : Engine}

theorem hasTimeout_of_step (hprevote : engine.state.step ≠ .prevoteWait)
    (hprecommit : engine.state.step ≠ .precommitWait) : HasTimeout engine :=
  ⟨fun h => absurd h hprevote, fun h => absurd h hprecommit⟩

/-- Only votes and proposals were recorded, and timers set. -/
theorem HasTimeout.frame (h : HasTimeout engine) (hstep : engine'.state.step = engine.state.step)
    (hheight : engine'.state.height = engine.state.height)
    (hround : engine'.state.round = engine.state.round) (htimers : engine.timers ⊆ engine'.timers)
    (htimeouts : engine'.prevoteTimeouts = engine.prevoteTimeouts) : HasTimeout engine' := by
  refine ⟨?_, ?_⟩
  · intro hwait
    rw [hheight, hround, htimeouts]
    rcases h.prevote (hstep ▸ hwait) with htimer | hpending
    · exact .inl (htimers htimer)
    · exact .inr hpending
  · intro hwait
    rw [hheight, hround]
    exact htimers (h.precommit (hstep ▸ hwait))

theorem waiting_setStep (step : Step) (hprevote : step ≠ .prevoteWait)
    (hprecommit : step ≠ .precommitWait) : Fallible.Respects waiting (setStep step) :=
  .modify fun _ _ => hasTimeout_of_step hprevote hprecommit

theorem waiting_handleProposal (msg : ProposalMessage) :
    Fallible.Respects waiting (handleProposal c config msg) := by
  intro engine
  refine (ends_handleProposal (waiting.refl engine) ?_).final
  intro _ _ _ _ h
  exact h.frame rfl rfl rfl (List.Subset.refl _) rfl

theorem waiting_handleVote {type : VoteType} (msg : VoteMessage type) {check : Action Engine Unit}
    (hcheck : Fallible.Respects waiting check) :
    Fallible.Respects waiting (handleVote c config msg check) := by
  intro engine
  refine (ends_handleVote (fun _ => waiting.refl engine) ?_ ?_).final
  · intro _ _ _ _ _ _ h
    exact h.frame rfl rfl rfl (List.Subset.refl _) rfl
  · intro _ _ _ _ _ _
    refine Fallible.ends_of_final (waiting.trans ?_ (hcheck _))
    intro h
    exact h.frame rfl rfl rfl (List.Subset.refl _) rfl

theorem waiting_useLock (task : Task) : Fallible.Respects waiting (useLock task) :=
  .modify fun _ h => h.frame rfl rfl rfl (List.Subset.refl _) rfl

theorem waiting_newConsensusMessage (msg : ConsensusMessage) :
    Fallible.Respects waiting (newConsensusMessage c config msg) := by
  cases msg with
  | proposal msg => exact waiting_handleProposal msg
  | prevote msg => exact waiting_handleVote msg (waiting_useLock _)
  | precommit msg => exact waiting_handleVote msg (.pure ())

theorem waiting_sendPrevoteMessage (blockHash : Option Hash) :
    Fallible.Respects waiting (sendPrevoteMessage c config blockHash) :=
  respects_sendVote (fun msg => waiting_handleVote msg (waiting_useLock _)) blockHash

theorem waiting_sendPrecommitMessage (blockHash : Option Hash) :
    Fallible.Respects waiting (sendPrecommitMessage c config blockHash) :=
  respects_sendVote (fun msg => waiting_handleVote msg (.pure ())) blockHash

/-! ### The steps of a round -/

theorem waiting_setTimeout (timer : Timer) : Fallible.Respects waiting (setTimeout timer) :=
  .modify fun _ h => h.frame rfl rfl rfl (List.subset_append_left _ _) rfl

theorem waiting_enterPropose (transactions : Option (List Transaction)) :
    Fallible.Respects waiting (enterPropose c config transactions) :=
  respects_enterPropose waiting_handleProposal waiting_setTimeout
    (waiting_setStep .propose Step.noConfusion Step.noConfusion) transactions

theorem waiting_doNewRound : Fallible.Respects waiting (doNewRound c config) := by
  refine Fallible.Respects.get.bind ?_
  intro engine
  simp only
  split
  · exact (waiting_setStep .propose nofun nofun).bind fun _ => .pure _
  · split
    · exact waiting_enterPropose _
    · split
      · exact waiting_enterPropose _
      · exact .pure _

/-- The timeout is set with the step. -/
theorem waiting_waitPrevote : Fallible.Respects waiting waitPrevote := by
  intro engine
  rw [waitPrevote, Fallible.get_bind]
  split
  · intro _
    refine ⟨fun _ => .inl ?_, nofun⟩
    exact List.mem_append_right _ (List.mem_singleton_self _)
  · exact waiting.refl engine

theorem waiting_waitPrecommit : Fallible.Respects waiting waitPrecommit := by
  intro engine
  rw [waitPrecommit, Fallible.get_bind]
  split
  · intro _
    refine ⟨nofun, fun _ => ?_⟩
    exact List.mem_append_right _ (List.mem_singleton_self _)
  · exact waiting.refl engine

theorem waiting_doPrevoteOrWait : Fallible.Respects waiting (doPrevoteOrWait c config) := by
  refine Fallible.Respects.get.bind ?_
  intro engine
  simp only
  split
  · exact waiting_waitPrevote
  · split
    · have hlock : Fallible.Respects waiting (modifyState fun state =>
          { state with lockedRound := state.round, lockedBlock := some ‹Block› }) :=
        .modify fun _ h => h.frame rfl rfl rfl (List.Subset.refl _) rfl
      exact hlock.bind fun _ => (waiting_sendPrecommitMessage _).bind fun _ => .pure _
    · split
      · exact (waiting_sendPrecommitMessage _).bind fun _ => .pure _
      · exact waiting_waitPrevote

theorem waiting_doPrecommitOrWait : Fallible.Respects waiting (doPrecommitOrWait c) := by
  refine Fallible.Respects.get.bind ?_
  intro engine
  simp only
  split
  · exact waiting_waitPrecommit
  · split
    · refine Fallible.Respects.bind ?_ fun _ => .pure _
      unfold commitBlock
      split
      · exact .throw _
      · refine Fallible.Respects.get.bind fun _ => Fallible.Respects.bind ?_ fun _ =>
          waiting_setStep .committed nofun nofun
        exact .modify fun _ h => h.frame rfl rfl rfl (List.Subset.refl _) rfl
    · split
      · exact Fallible.Respects.bind
          (.modify fun _ _ => hasTimeout_of_step Step.noConfusion Step.noConfusion) fun _ => .pure _
      · exact waiting_waitPrecommit

/-! ### Tasks and continuations -/

theorem waiting_task (task : Task) (world : World) :
    Fallible.Respects waiting (task.run c config world) := by
  cases task with
  | proceedConsensus =>
      refine Fallible.Respects.get.bind ?_
      intro engine
      cases engine.state.step with
      | newRound => exact waiting_doNewRound
      | propose => exact Parts.doPropose waiting_sendPrevoteMessage world
      | prevote => exact waiting_doPrevoteOrWait
      | prevoteWait => exact waiting_doPrevoteOrWait
      | precommit => exact waiting_doPrecommitOrWait
      | precommitWait => exact waiting_doPrecommitOrWait
      | committed => exact .pure _
  | proposeTimeout height round =>
      refine Fallible.Respects.get.bind ?_
      intro engine
      simp only
      split
      · exact (waiting_sendPrevoteMessage none).bind fun _ => .pure _
      · exact .pure _
  | checkValidBlock height round =>
      refine Fallible.Respects.bind ?_ fun _ => .pure _
      intro engine h
      have hsteady := steady_checkValidBlock (c := c) height round engine
      exact h.frame hsteady.step hsteady.height hsteady.round hsteady.timers.subset rfl
  | checkRoundSkip height round type =>
      refine Fallible.Respects.bind (.modify ?_) fun _ => .pure _
      intro engine h
      simp only
      split
      · exact h
      · split
        · exact hasTimeout_of_step Step.noConfusion Step.noConfusion
        · exact h
  | newHeight height appStateHash nextValidatorSetRoot eventTransactionRoot =>
      intro engine _
      exact hasTimeout_of_step Step.noConfusion Step.noConfusion

theorem waiting_resume {await : Await} {answer : Answer} {action : Action Engine (Option Await)}
    (hresume : await.resume c config answer = some action) : Fallible.Respects waiting action := by
  cases Await.resumes hresume with
  | lastBlock block =>
      exact respects_checkAppState waiting_handleProposal waiting_setTimeout
        (waiting_setStep .propose Step.noConfusion Step.noConfusion) block
  | noTransactions => exact .pure _
  | newRoundTransactions => exact waiting_enterPropose _
  | proposeTransactions => exact respects_sendProposalMessage waiting_handleProposal _
  | lastConsensus => exact respects_constructAndPropose waiting_handleProposal _ _ _ _
  | sendProposalMessage => exact (waiting_setStep .propose nofun nofun).bind fun _ => .pure _
  | sendPrevoteMessage => exact (waiting_setStep .prevote nofun nofun).bind fun _ => .pure _
  | sendPrecommitMessage => exact (waiting_setStep .precommit nofun nofun).bind fun _ => .pure _
  | commitBlock => exact .pure _
  | failed => exact .throw _

theorem HasTimeout.settle {result : EStateM.Result Error Engine (Option Await)}
    (h : HasTimeout (Fallible.final result)) (task : Task) :
    HasTimeout (ChainCore.settle task result) := by
  cases result with
  | ok await engine' =>
      cases await with
      | none => exact h.frame rfl rfl rfl (List.Subset.refl _) rfl
      | some await => exact h.frame rfl rfl rfl (List.Subset.refl _) rfl
  | error e engine' => exact h.frame rfl rfl rfl (List.Subset.refl _) rfl

end Code

/-! ## The timeouts -/

section Timeouts

variable {c : Crypto} {config : Config} {engine : Engine} {event : Event}

/-- The prevote timeout of the round that the node is in. -/
theorem run_prevote_timer (htallied : Tallied c (config.genesisHash c) engine.state)
    (hcan : CanVote c config engine) (hstep : engine.state.step = .prevoteWait) :
    ∃ engine', Timer.run c config (.prevote engine.state.height engine.state.round) engine =
        .ok () engine' ∧ engine'.state.step = .prevoteWait ∧ 0 < engine'.prevoteTimeouts := by
  rcases sendPrecommitMessage_ok engine htallied hcan none with ⟨sent, hok⟩
  have hsteady : Steady engine (Fallible.final (sendPrecommitMessage c config none engine)) :=
    steady_sendPrecommitMessage none engine
  rw [hok] at hsteady
  refine ⟨{ sent with prevoteTimeouts := sent.prevoteTimeouts + 1 }, ?_, hsteady.step.trans hstep,
    Nat.succ_pos _⟩
  rw [Timer.run, Fallible.get_bind]
  simp only
  rw [if_pos ⟨trivial, trivial, hstep⟩]
  exact Fallible.bind_ok hok

/-- A timer of another kind or of another round is not missed. -/
theorem HasTimeout.erase (h : HasTimeout engine) {timer : Timer}
    (hprevote : engine.state.step = .prevoteWait →
      timer ≠ .prevote engine.state.height engine.state.round)
    (hprecommit : engine.state.step = .precommitWait →
      timer ≠ .precommit engine.state.height engine.state.round) :
    HasTimeout { engine with timers := engine.timers.erase timer } := by
  refine ⟨?_, ?_⟩
  · intro hstep
    rcases h.prevote hstep with htimer | hpending
    · exact .inl ((List.mem_erase_of_ne (hprevote hstep).symm).mpr htimer)
    · exact .inr hpending
  · intro hstep
    exact (List.mem_erase_of_ne (hprecommit hstep).symm).mpr (h.precommit hstep)

theorem HasTimeout.timer (h : HasTimeout engine) {timer : Timer}
    (htallied : Tallied c (config.genesisHash c) engine.state)
    (hcan : CanVoteAtTimeout c config engine (.timeout timer)) :
    HasTimeout (Fallible.final
      (timer.run c config { engine with timers := engine.timers.erase timer })) := by
  cases timer with
  | propose height round =>
      have herased : HasTimeout
          { engine with timers := engine.timers.erase (.propose height round) } :=
        h.erase (fun _ => Timer.noConfusion) fun _ => Timer.noConfusion
      exact herased.frame rfl rfl rfl (List.Subset.refl _) rfl
  | prevote height round =>
      by_cases hmine : engine.state.height = height ∧ engine.state.round = round ∧
          engine.state.step = .prevoteWait
      · -- the timeout is used up, and sends the precommit
        rcases hmine with ⟨rfl, rfl, hstep⟩
        rcases @run_prevote_timer c config
          { engine with timers := engine.timers.erase _ } htallied
          ((hcan rfl hstep).congr rfl rfl rfl rfl) hstep with ⟨engine', hok, hwait, hpending⟩
        rw [hok]
        refine ⟨fun _ => .inr hpending, ?_⟩
        intro hprecommit
        rw [Fallible.final_ok, hwait] at hprecommit
        cases hprecommit
      · rw [Timer.run, Fallible.get_bind]
        simp only
        rw [if_neg hmine]
        refine h.erase ?_ fun _ => Timer.noConfusion
        rintro hstep heq
        cases heq
        exact hmine ⟨rfl, rfl, hstep⟩
  | precommit height round =>
      by_cases hmine : engine.state.height = height ∧ engine.state.round = round ∧
          engine.state.step = .precommitWait
      · rw [Timer.run, Fallible.get_bind]
        simp only
        rw [if_pos hmine]
        exact hasTimeout_of_step Step.noConfusion Step.noConfusion
      · rw [Timer.run, Fallible.get_bind]
        simp only
        rw [if_neg hmine]
        refine h.erase (fun _ => Timer.noConfusion) ?_
        rintro hstep heq
        cases heq
        exact hmine ⟨rfl, rfl, hstep⟩

theorem HasTimeout.step (h : HasTimeout engine)
    (htallied : Tallied c (config.genesisHash c) engine.state)
    (hcan : CanVoteAtTimeout c config engine event) : HasTimeout (engine.step c config event) := by
  have hidle : ∀ {engine' : Engine}, engine'.state = engine.state → engine'.timers = engine.timers →
      engine'.prevoteTimeouts = engine.prevoteTimeouts → HasTimeout engine' := by
    intro engine' hstate htimers htimeouts
    exact h.frame (by rw [hstate]) (by rw [hstate]) (by rw [hstate])
      (htimers ▸ List.Subset.refl _) htimeouts
  cases event with
  | start =>
      rw [Engine.step]
      split
      · exact hidle rfl rfl rfl
      · exact h
  | stop => exact hidle rfl rfl rfl
  | loop =>
      rw [Engine.step]
      split
      · exact hidle rfl rfl rfl
      · exact h
  | newConsensusMessage msg => exact waiting_newConsensusMessage msg engine h
  | acquire world =>
      rw [Engine.step]
      split
      · rename_i task queue _ _
        have hpopped : HasTimeout { engine with queue } := hidle rfl rfl rfl
        exact (waiting_task task world _ hpopped).settle task
      · exact h
  | resume answer =>
      rw [Engine.step]
      split
      · rename_i task await _
        split
        · rename_i action hresume
          have hfreed : HasTimeout { engine with holder := none } := hidle rfl rfl rfl
          exact (waiting_resume hresume _ hfreed).settle task
        · exact h
      · exact h
  | timeout timer =>
      rw [Engine.step]
      split
      · exact h.timer htallied hcan
      · exact h
  | prevoteTimeout =>
      rw [Engine.step]
      split
      · exact hasTimeout_of_step Step.noConfusion Step.noConfusion
      · exact h
  | setNewHeight => exact hidle rfl rfl rfl

/-- A timeout that is there takes the node on. -/
theorem HasTimeout.released (h : HasTimeout engine)
    (htallied : Tallied c (config.genesisHash c) engine.state) : Released c config engine := by
  refine ⟨?_, ?_⟩
  · intro hstep
    rw [Engine.step, if_pos (h.precommit hstep), Timer.run, Fallible.get_bind]
    simp only
    rw [if_pos ⟨trivial, trivial, hstep⟩]
    rfl
  · intro hstep hcan
    -- after the first event the precommit is being sent
    suffices hpending : 0 < (engine.step c config
        (.timeout (.prevote engine.state.height engine.state.round))).prevoteTimeouts by
      rw [Engine.run, List.foldl_cons, List.foldl_cons, List.foldl_nil]
      generalize engine.step c config _ = sent at hpending ⊢
      rw [Engine.step, if_pos hpending]
    rw [Engine.step]
    split
    · rcases @run_prevote_timer c config { engine with timers := engine.timers.erase _ } htallied
        (hcan.congr rfl rfl rfl rfl) hstep with ⟨engine', hok, -, hpending⟩
      rw [hok]
      exact hpending
    · rename_i hnot
      exact (h.prevote hstep).resolve_left hnot

end Timeouts

/-- In every run in which the node can vote when a prevote timeout runs off, a node that waits has the
timeout of its round, and that takes it to the Precommit step or to the next round. -/
theorem timeouts_release (c : Crypto) (config : Config) (initialValidatorSet : ValidatorSet)
    (events : List Event)
    (hguarded : Along (Engine.step c config) (Engine.new c initialValidatorSet) events
      (CanVoteAtTimeout c config)) :
    Throughout (Engine.step c config) (Engine.new c initialValidatorSet) events
      (Released c config) := by
  have hboth : Throughout (Engine.step c config) (Engine.new c initialValidatorSet) events
      fun engine => Tallied c (config.genesisHash c) engine.state ∧ HasTimeout engine := by
    refine hguarded.throughout ?_ ?_
    · exact ⟨tallied_of_none rfl, hasTimeout_of_step Step.noConfusion Step.noConfusion⟩
    · rintro engine event ⟨htallied, htimeout⟩ hcan
      exact ⟨htallied.step event, htimeout.step htallied hcan⟩
  intro before after hevents
  rcases hboth before after hevents with ⟨htallied, htimeout⟩
  exact htimeout.released htallied

section Sample

instance (c : Crypto) (config : Config) (engine : Engine) (event : Event) :
    Decidable (CanVoteAtTimeout c config engine event) :=
  inferInstanceAs (Decidable (_ → _ → _))

/-- Two validators that need each other. -/
def evenValidatorSet : ValidatorSet :=
  ⟨[⟨(Consensus.sampleKey 2).address .transparent, 1⟩,
    ⟨(Consensus.sampleKey 1).address .transparent, 1⟩]⟩

/-- A vote of the first of them for the genesis block. -/
def voteOfOther (type : VoteType) : List Event :=
  (ConsensusMessage.signVote .transparent type ⟨1, 1, sampleGenesis.hash .transparent⟩
    (sampleGenesis.hash .transparent) (Consensus.sampleKey 2)).toOption.toList.map
      fun msg => .newConsensusMessage (voteMessage msg)

/-- The second one never gets the proposal: it votes for no block, and waits in both steps. -/
def waitingRun : List Event :=
  [.setNewHeight 1 Hash.zero evenValidatorSet Hash.zero Hash.zero, .acquire Nodes.sampleWorld,
      .start] ++ voteOfOther .prevote ++ Nodes.proceed 2 ++
    [.timeout (.propose 1 1), .acquire Nodes.sampleWorld, .resume .done] ++ Nodes.proceed 2 ++
    [.timeout (.prevote 1 1), .prevoteTimeout] ++ voteOfOther .precommit ++ Nodes.proceed 2

theorem timeouts_release_waitingRun :
    ((Engine.new .transparent evenValidatorSet).run .transparent
      (Nodes.validatorAndObserver.config true) waitingRun).state.step = .precommitWait ∧
    Throughout (Engine.step .transparent (Nodes.validatorAndObserver.config true))
      (Engine.new .transparent evenValidatorSet) waitingRun
      (Released .transparent (Nodes.validatorAndObserver.config true)) :=
  ⟨by decide +kernel, timeouts_release .transparent _ evenValidatorSet waitingRun (by decide +kernel)⟩

end Sample

end ChainCore
end UniqysKit
