import UniqysKit.ChainCore.EngineParts

/-!
# What the code of a round leaves alone

Only the task of `setNewHeight` enters a height, and nothing else queues one or changes the validator
set of the engine.  `Frame` is for relations between engines that do not look at the rest: whatever
the code of a round does respects them.
-/

namespace UniqysKit
namespace ChainCore

open Library Engine

/-- The task enters a height. -/
def Task.isNewHeight : Task → Bool
  | .newHeight _ _ _ _ => true
  | _ => false

/-- The height that is entered, and its validator set. -/
def Effect.newHeight? : Effect → Option (Nat × ValidatorSet)
  | .newHeight height validatorSet => some (height, validatorSet)
  | _ => none

/-- The relation does not look at the state of the height, the timers, the tasks of a round and the
messages and blocks in the trace. -/
structure Frame (R : Fallible.Progress Engine) : Prop where
  state : ∀ engine state, R.rel engine { engine with state }
  timers : ∀ engine timers, R.rel engine { engine with timers }
  prevoteTimeouts : ∀ engine prevoteTimeouts, R.rel engine { engine with prevoteTimeouts }
  task : ∀ engine task, task.isNewHeight = false →
    R.rel engine { engine with queue := engine.queue ++ [task] }
  effect : ∀ engine effect, effect.newHeight? = none →
    R.rel engine { engine with trace := engine.trace ++ [effect] }

namespace Frame

variable {c : Crypto} {config : Config} {R : Fallible.Progress Engine} (h : Frame R)

include h

theorem modifyState (f : State → State) : Fallible.Respects R (Engine.modifyState f) :=
  .modify fun engine => h.state engine _

theorem useLock {task : Task} (htask : task.isNewHeight = false) :
    Fallible.Respects R (Engine.useLock task) :=
  .modify fun engine => h.task engine task htask

theorem emit {effect : Effect} (heffect : effect.newHeight? = none) :
    Fallible.Respects R (Engine.emit effect) :=
  .modify fun engine => h.effect engine effect heffect

/-! ## Messages -/

theorem handleProposal (msg : ProposalMessage) :
    Fallible.Respects R (ChainCore.handleProposal c config msg) := by
  refine Fallible.Respects.get.bind ?_
  intro engine
  simp only
  split
  · exact .pure _
  · split
    · exact .pure _
    · split
      · exact .pure _
      · refine (Action.respects_fromResult _).bind fun proposer => ?_
        refine (Action.respects_fromResult _).bind fun signer => ?_
        split
        · exact .pure _
        · exact (h.modifyState _).bind fun _ => h.emit rfl

theorem addVote {type : VoteType} (address : Address) (msg : VoteMessage type) :
    Fallible.Respects R (ChainCore.addVote address msg) := by
  intro engine
  unfold ChainCore.addVote
  simp only
  split
  · exact h.state engine _
  · exact h.state engine _

theorem handleVote {type : VoteType} (msg : VoteMessage type) {check : Action Engine Unit}
    (hcheck : Fallible.Respects R check) :
    Fallible.Respects R (ChainCore.handleVote c config msg check) := by
  refine Fallible.Respects.get.bind ?_
  intro engine
  simp only
  split
  · exact .pure _
  · refine (Action.respects_fromResult _).bind ?_
    intro address
    split
    · exact .pure _
    · exact (h.addVote address msg).bind fun _ => (h.emit (by cases type <;> rfl)).bind fun _ =>
        (h.useLock rfl).bind fun _ => hcheck

theorem newConsensusMessage (msg : ConsensusMessage) :
    Fallible.Respects R (ChainCore.newConsensusMessage c config msg) := by
  cases msg with
  | proposal msg => exact h.handleProposal msg
  | prevote msg => exact h.handleVote msg (h.useLock rfl)
  | precommit msg => exact h.handleVote msg (.pure ())

theorem sendPrevoteMessage (blockHash : Option Hash) :
    Fallible.Respects R (ChainCore.sendPrevoteMessage c config blockHash) :=
  respects_sendVote (fun msg => h.handleVote msg (h.useLock rfl)) blockHash

theorem sendPrecommitMessage (blockHash : Option Hash) :
    Fallible.Respects R (ChainCore.sendPrecommitMessage c config blockHash) :=
  respects_sendVote (fun msg => h.handleVote msg (.pure ())) blockHash

/-! ## Tasks, continuations and timers -/

theorem round : RoundParts c config R where
  timers := h.timers
  prevoteTimeouts := h.prevoteTimeouts
  proposeTimeout engine height round := h.task engine (.proposeTimeout height round) rfl
  setStep engine _ := h.state engine _
  proposal := h.handleProposal
  prevote := h.sendPrevoteMessage none
  precommit := h.sendPrecommitMessage
  lock _ _ := h.state _ _
  validBlock _ _ _ := h.state _ _
  newRound _ := h.state _ _

theorem committed (engine : Engine) (vote : Vote) (block : Block) :
    R.rel engine (ChainCore.committed engine vote block) := by
  have hstate := h.state engine { engine.state with step := .committed }
  exact R.trans hstate (h.effect _ (.commitBlock engine.state.height block
    ⟨vote, engine.state.currentRoundState.precommit.signatures vote.blockHash⟩) rfl)

theorem taskRun (world : World) {task : Task} (htask : task.isNewHeight = false) :
    Fallible.Respects R (task.run c config world) := by
  intro engine
  refine h.round.task task ?_ ?_ ?_
  · intro _ _
    exact Parts.doPropose h.sendPrevoteMessage world engine
  · intro vote block _ _ _ _
    exact h.committed engine vote block
  · rintro height appStateHash nextValidatorSetRoot eventTransactionRoot rfl
    cases htask

end Frame

/-! ## Entering heights -/

namespace Engine

/-- The tasks of `setNewHeight` that wait for the lock. -/
def pendingHeights (engine : Engine) : List Task := engine.queue.filter Task.isNewHeight

/-- The heights that were entered, with the validator set of the engine at that time. -/
def enteredHeights (engine : Engine) : List (Nat × ValidatorSet) :=
  engine.trace.filterMap Effect.newHeight?

/-- What decides on the heights that are entered. -/
def heights (engine : Engine) : ValidatorSet × List Task × List (Nat × ValidatorSet) :=
  (engine.validatorSet, engine.pendingHeights, engine.enteredHeights)

end Engine

section Heights

variable {c : Crypto} {config : Config}

theorem frame_heights : Frame (.constant Engine.heights) where
  state _ _ := rfl
  timers _ _ := rfl
  prevoteTimeouts _ _ := rfl
  task engine task htask := by
    have hqueue : (engine.queue ++ [task]).filter Task.isNewHeight =
        engine.queue.filter Task.isNewHeight := by
      rw [List.filter_append, List.filter_singleton, htask]
      exact List.append_nil _
    exact congrArg (fun pending => (engine.validatorSet, pending, engine.enteredHeights)) hqueue
  effect engine effect heffect := by
    have htrace : (engine.trace ++ [effect]).filterMap Effect.newHeight? =
        engine.trace.filterMap Effect.newHeight? := by
      rw [List.filterMap_append, List.filterMap_cons_none heffect]
      exact List.append_nil _
    exact congrArg (fun entered => (engine.validatorSet, engine.pendingHeights, entered)) htrace

theorem heights_settle (task : Task) (result : EStateM.Result Error Engine (Option Await)) :
    (settle task result).heights = (Fallible.final result).heights := by
  cases result with
  | ok await engine' =>
      cases await with
      | none => rfl
      | some await => rfl
  | error e engine' => rfl

/-- The end of `setNewHeight` queues a task. -/
theorem heights_setNewHeight (engine : Engine) (height : Nat) (appStateHash : Hash)
    (validatorSet : ValidatorSet) (nextValidatorSetRoot eventTransactionRoot : Hash) :
    (engine.step c config (.setNewHeight height appStateHash validatorSet nextValidatorSetRoot
      eventTransactionRoot)).heights = (validatorSet, engine.pendingHeights ++
        [.newHeight height appStateHash nextValidatorSetRoot eventTransactionRoot],
        engine.enteredHeights) := by
  unfold heights pendingHeights
  rw [Engine.step, List.filter_append]
  rfl

/-- What another event can do to the heights: a task that gets the lock enters its height, and all
other code leaves them alone. -/
theorem heights_step (engine : Engine) (event : Event)
    (hevent : ∀ height appStateHash validatorSet nextValidatorSetRoot eventTransactionRoot,
      event ≠ .setNewHeight height appStateHash validatorSet nextValidatorSetRoot
        eventTransactionRoot) :
    (∃ height appStateHash nextValidatorSetRoot eventTransactionRoot rest,
      engine.pendingHeights =
        .newHeight height appStateHash nextValidatorSetRoot eventTransactionRoot :: rest ∧
      (engine.step c config event).heights = (engine.validatorSet, rest,
        engine.enteredHeights ++ [(height, engine.validatorSet)])) ∨
    (engine.step c config event).heights = engine.heights := by
  cases event with
  | start =>
      rw [Engine.step]
      split
      · exact .inr rfl
      · exact .inr rfl
  | stop => exact .inr rfl
  | loop =>
      rw [Engine.step]
      split
      · exact .inr (frame_heights.task { engine with consensusLoop := .running } _ rfl)
      · exact .inr rfl
  | newConsensusMessage msg => exact .inr (frame_heights.newConsensusMessage msg engine)
  | acquire world =>
      rw [Engine.step]
      split
      · rename_i task queue hholder hqueue
        rw [heights_settle]
        -- only a task of `newHeight` enters a height, and it leaves the queue for it
        cases htask : task.isNewHeight with
        | false =>
            have hpending : engine.heights = ({ engine with queue } : Engine).heights := by
              unfold heights pendingHeights
              rw [hqueue, List.filter_cons_of_neg (by simp [htask])]
              rfl
            rw [hpending]
            exact .inr (frame_heights.taskRun world htask { engine with queue })
        | true =>
            cases task with
            | newHeight height appStateHash nextValidatorSetRoot eventTransactionRoot =>
                refine .inl ⟨height, appStateHash, nextValidatorSetRoot, eventTransactionRoot,
                  queue.filter Task.isNewHeight, ?_, ?_⟩
                · unfold pendingHeights
                  rw [hqueue, List.filter_cons_of_pos rfl]
                · have htrace : (engine.trace ++ [Effect.newHeight height engine.validatorSet]).filterMap
                      Effect.newHeight? =
                      engine.enteredHeights ++ [(height, engine.validatorSet)] :=
                    List.filterMap_append
                  rw [← htrace]
                  rfl
            | _ => cases htask
      · exact .inr rfl
  | resume answer =>
      rw [Engine.step]
      split
      · split
        · rename_i hresume
          refine .inr ?_
          rw [heights_settle]
          exact frame_heights.round.resume hresume { engine with holder := none }
        · exact .inr rfl
      · exact .inr rfl
  | timeout timer =>
      rw [Engine.step]
      split
      · exact .inr (frame_heights.round.timer timer
          { engine with timers := engine.timers.erase timer })
      · exact .inr rfl
  | prevoteTimeout =>
      rw [Engine.step]
      split
      · exact .inr rfl
      · exact .inr rfl
  | setNewHeight height appStateHash validatorSet nextValidatorSetRoot eventTransactionRoot =>
      -- the event that queues a height is excluded
      exact absurd rfl (hevent _ _ _ _ _)

end Heights

end ChainCore
end UniqysKit
