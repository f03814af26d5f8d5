import UniqysKit.EasyFramework.Execution
import UniqysKit.Library.Runs

/-!
# Events of the proposer and of the validators

`Controller.selectTransactions`, which gives the proposer the transactions of the next block, and the
root of the next events in the `AppState` of `executeTransactions`, which validators compare that
block with.  Both ask the event provider, each for its own window of time.  The root is computed with
the latest event timestamp of before `newHeight`; the selection uses the one that `newHeight` sets.
`events_agree` says which blocks the two agree after.
-/

namespace UniqysKit
namespace EasyFramework

open Library

namespace Controller

open State

section Definitions

variable (c : Crypto)

/-- The transactions of the pool that have the next nonce of their signer. -/
def selectNext : List UniqysKit.Transaction → Action State (List UniqysKit.Transaction)
  | [] => return []
  | coreTx :: rest => do
      let (tx, _) ← Action.fromResult (SignedTransaction.deserialize c coreTx.data)
      let account ← getAccount tx.signer
      let selected ← selectNext rest
      return if tx.nonce = account.nonce + 1 then coreTx :: selected else selected

/-- The events between the latest event timestamp and a later time. -/
def eventsUntil (eventProvider : Option EventProvider) (metaState : MetaState) (timestamp : Nat) :
    Result (List UniqysKit.Transaction) :=
  if metaState.latestEventTimestamp < timestamp then
    eventTransactions eventProvider metaState timestamp
  else .ok []

def selectTransactions (eventProvider : Option EventProvider) (currentTimestamp : Nat)
    (coreTxs : List UniqysKit.Transaction) : Action State (Option (List UniqysKit.Transaction)) := do
  let next ← selectNext c coreTxs
  let metaState := (← get).metaState
  let eventTxs ← Action.fromResult
    (eventsUntil eventProvider metaState metaState.latestBlockTimestamp)
  let selected := next ++ eventTxs
  if selected.length > 0 then
    return some selected
  else
    let newEventTxs ← Action.fromResult (eventsUntil eventProvider metaState currentTimestamp)
    if newEventTxs.length > 0 then
      -- pending events: an empty block is proposed
      return some []
    else
      return none

/-- The transactions that `validateBlock` takes for events. -/
def eventsOf (coreTxs : List UniqysKit.Transaction) : List UniqysKit.Transaction :=
  coreTxs.filter fun coreTx => coreTx.type = TransactionType.event.toNat

/-- A block as the application executes it. -/
structure Execution where
  header : BlockHeader
  coreTxs : List (UniqysKit.Transaction × Handling)

namespace Execution

variable (execution : Execution)

def eventExists : Bool :=
  execution.coreTxs.any fun (coreTx, _) => coreTx.type = TransactionType.event.toNat

/-- The latest event timestamp that `newHeight` sets for the block. -/
def latestEventTimestamp (metaState : MetaState) : Nat :=
  if execution.eventExists then metaState.latestBlockTimestamp else metaState.latestEventTimestamp

/-- The nonce of the first event after the block. -/
def nextEventNonce (metaState : MetaState) : Nat :=
  eventNonceAfter c execution.coreTxs metaState.eventNonce + 1

end Execution

variable (eventProvider : Option EventProvider)

/-- Executing a block. -/
def execute (controller : Controller) (execution : Execution) : Controller :=
  Fallible.final
    (executeCoreTransactions c eventProvider execution.header execution.coreTxs controller)

/-- A block of the history: it is executed, it is not older than the one before, and its events are
those that `selectTransactions` has chosen for some pool. -/
structure Proper (controller : Controller) (execution : Execution) : Prop where
  executed : ∃ appState controller',
    executeCoreTransactions c eventProvider execution.header execution.coreTxs controller =
      .ok appState controller'
  timestamp : controller.state.metaState.latestBlockTimestamp ≤ execution.header.timestamp
  selected : ∃ pool currentTimestamp selected state,
    selectTransactions c eventProvider currentTimestamp pool controller.state = .ok selected state ∧
      eventsOf (execution.coreTxs.map Prod.fst) = eventsOf (selected.getD [])

/-- The events that the proposer selects, whatever normal transactions are in the pool, have the root
that the validators have computed. -/
def Agrees (appState : AppState) (state : State) : Prop :=
  ∀ pool currentTimestamp selected state',
    (∀ coreTx ∈ pool, coreTx.type ≠ TransactionType.event.toNat) →
      selectTransactions c eventProvider currentTimestamp pool state = .ok selected state' →
        MerkleTree.root c ((eventsOf (selected.getD [])).map (UniqysKit.Transaction.hash c)) =
          appState.eventTransactionRoot

/-- What the provider gives up to the time of a block. If there is an event in the block, it gives
the same from the block before on as from the event before on; if the next window has no extent, it
gives nothing; and what it gives are events. -/
structure Consistent (getTransactions : EventProvider) (controller : Controller)
    (execution : Execution) : Prop where
  window :
    let metaState := controller.state.metaState
    let timestamp := execution.header.timestamp
    let nonce := execution.nextEventNonce c metaState
    execution.eventExists = true → metaState.latestBlockTimestamp < timestamp →
      getTransactions metaState.latestEventTimestamp timestamp nonce =
        getTransactions metaState.latestBlockTimestamp timestamp nonce
  extent :
    let metaState := controller.state.metaState
    let timestamp := execution.header.timestamp
    execution.latestEventTimestamp metaState = timestamp →
      getTransactions metaState.latestEventTimestamp timestamp
        (execution.nextEventNonce c metaState) = .ok []
  events :
    let metaState := controller.state.metaState
    ∀ eventTxs, getTransactions metaState.latestEventTimestamp execution.header.timestamp
      (execution.nextEventNonce c metaState) = .ok eventTxs →
        ∀ coreTx ∈ eventTxs, coreTx.type = TransactionType.event.toNat

end Definitions

variable {c : Crypto} {eventProvider : Option EventProvider}

/-! ## Selection -/

theorem selectNext_subset (pool : List UniqysKit.Transaction) (state : State) :
    Fallible.Ends (selectNext c pool) state (fun selected _ => selected ⊆ pool) fun _ => True := by
  induction pool generalizing state with
  | nil => exact List.Subset.refl _
  | cons coreTx rest ih =>
      unfold selectNext
      refine Fallible.ends_bind.mpr (Action.ends_fromResult ?_ fun _ _ => trivial)
      rintro ⟨tx, _⟩ -
      refine Fallible.ends_bind.mpr ((Fallible.ends_of_final (P := fun _ => True) trivial).mono
        ?_ fun _ _ => trivial)
      intro account state' _
      refine Fallible.ends_bind.mpr ((ih state').mono ?_ fun _ _ => trivial)
      intro selected _ hsubset
      rw [Fallible.ends_pure]
      split
      · exact List.cons_subset_cons coreTx hsubset
      · exact List.Subset.trans hsubset (List.subset_cons_self _ _)

theorem apart_selectNext (pool : List UniqysKit.Transaction) : Apart (selectNext c pool) := by
  induction pool with
  | nil => exact .pure _
  | cons coreTx rest ih =>
      exact (apart_fromResult _).bind fun _ => (apart_getAccount _).bind fun _ =>
        ih.bind fun _ => .pure _

theorem eventsUntil_settled (metaState : MetaState) (timestamp : Nat) :
    eventsUntil eventProvider metaState.settled timestamp =
      eventsUntil eventProvider metaState timestamp := rfl

/-- The events of a selection are those of the provider, unless the pool has some. -/
theorem eventsOf_selected {currentTimestamp : Nat} {pool : List UniqysKit.Transaction}
    {selected : Option (List UniqysKit.Transaction)} {state state' : State}
    (hpool : ∀ coreTx ∈ pool, coreTx.type ≠ TransactionType.event.toNat)
    (h : selectTransactions c eventProvider currentTimestamp pool state = .ok selected state') :
    ∃ eventTxs,
      eventsUntil eventProvider state.metaState state.metaState.latestBlockTimestamp =
        .ok eventTxs ∧ eventsOf (selected.getD []) = eventsOf eventTxs := by
  unfold selectTransactions at h
  rcases Fallible.bind_cases (selectNext c pool) _ state with
    ⟨next, mid, hnext, hbind⟩ | ⟨e, mid, -, hbind⟩
  · have hsubset := (selectNext_subset (c := c) pool state).of_ok hnext
    have hsettled : mid.metaState.settled = state.metaState.settled := by
      have hsettles := (apart_selectNext (c := c) pool).settles state
      rwa [hnext] at hsettles
    have hnone : eventsOf next = [] := by
      refine List.filter_eq_nil_iff.mpr ?_
      intro coreTx hmem
      simpa using hpool coreTx (hsubset hmem)
    -- selecting from the pool leaves what the events depend on
    have hevents : eventsUntil eventProvider mid.metaState mid.metaState.latestBlockTimestamp =
        eventsUntil eventProvider state.metaState state.metaState.latestBlockTimestamp := by
      rw [← eventsUntil_settled, ← mid.metaState.settled_latestBlockTimestamp, hsettled,
        eventsUntil_settled, MetaState.settled_latestBlockTimestamp]
    rw [hbind, Fallible.get_bind] at h
    rw [← hevents]
    cases hgiven : eventsUntil eventProvider mid.metaState mid.metaState.latestBlockTimestamp with
    | error e =>
        rw [Action.fromResult_bind_error hgiven] at h
        cases h
    | ok eventTxs =>
        rw [Action.fromResult_bind_ok hgiven] at h
        refine ⟨eventTxs, rfl, ?_⟩
        split at h
        · cases h
          rw [Option.getD_some, eventsOf, List.filter_append]
          exact congrArg (· ++ _) hnone
        · rename_i hlength
          have hzero := Nat.le_zero.mp (not_lt.mp hlength)
          have hempty := List.append_eq_nil_iff.mp (List.eq_nil_of_length_eq_zero hzero)
          rw [hempty.2]
          -- what is selected now has no transactions at all
          cases hnew : eventsUntil eventProvider mid.metaState currentTimestamp with
          | error e =>
              rw [Action.fromResult_bind_error hnew] at h
              cases h
          | ok newEventTxs =>
              rw [Action.fromResult_bind_ok hnew] at h
              split at h
              · cases h
                rfl
              · cases h
                rfl
  · rw [hbind] at h
    cases h

/-! ## After a block -/

section

variable {controller controller' : Controller} {execution : Execution} {appState : AppState}

/-- What a block leaves for the selection of the next one. -/
theorem metaState_of_executed
    (h : executeCoreTransactions c eventProvider execution.header execution.coreTxs controller =
      .ok appState controller') :
    let metaState := controller.state.metaState
    let metaState' := controller'.state.metaState
    metaState'.latestBlockTimestamp = execution.header.timestamp ∧
      metaState'.latestEventTimestamp = execution.latestEventTimestamp metaState ∧
      metaState'.eventNonce + 1 = execution.nextEventNonce c metaState ∧
      ∃ eventTxs, eventTransactions eventProvider
          (metaState.withEventNonce (eventNonceAfter c execution.coreTxs metaState.eventNonce))
          execution.header.timestamp = .ok eventTxs ∧
        appState.eventTransactionRoot =
          MerkleTree.root c (eventTxs.map (UniqysKit.Transaction.hash c)) := by
  rcases executeCoreTransactions_iff.mp h with
    ⟨validTxHashes, next, eventTxs, hloop, hevents, -, rfl, rfl⟩
  -- the loop changes the event nonce and nothing else of the meta state
  have hsettled := executeAllCore_settled hloop
  have hblock : next.state.metaState.latestBlockTimestamp =
      controller.state.metaState.latestBlockTimestamp := by
    simpa using congrArg MetaState.latestBlockTimestamp hsettled
  have hevent : next.state.metaState.latestEventTimestamp =
      controller.state.metaState.latestEventTimestamp := by
    simpa using congrArg MetaState.latestEventTimestamp hsettled
  have hnonce : next.state.metaState.eventNonce =
      eventNonceAfter c execution.coreTxs controller.state.metaState.eventNonce := by
    simpa using congrArg MetaState.eventNonce hsettled
  refine ⟨rfl, ?_, ?_, eventTxs, ?_, rfl⟩
  · unfold Execution.latestEventTimestamp
    rw [← hblock, ← hevent]
    rfl
  · unfold Execution.nextEventNonce
    rw [← hnonce]
    rfl
  · -- the root is computed before the timestamps are set
    rw [← hevents, ← eventTransactions_settled, ← hsettled, eventTransactions_settled]

/-- What the provider gives up to the time of a block is what is selected after it. -/
theorem Consistent.eventsUntil_eq {getTransactions : EventProvider} {metaState' : MetaState}
    (hconsistent : Consistent c getTransactions controller execution)
    (htimestamp : execution.latestEventTimestamp controller.state.metaState ≤
      execution.header.timestamp)
    (hevent : metaState'.latestEventTimestamp =
      execution.latestEventTimestamp controller.state.metaState)
    (hnonce : metaState'.eventNonce + 1 = execution.nextEventNonce c controller.state.metaState) :
    eventsUntil (some getTransactions) metaState' execution.header.timestamp =
      getTransactions controller.state.metaState.latestEventTimestamp execution.header.timestamp
        (execution.nextEventNonce c controller.state.metaState) := by
  unfold eventsUntil
  simp only [eventTransactions, hevent, hnonce]
  rcases htimestamp.lt_or_eq with hlt | heq
  · rw [if_pos hlt]
    unfold Execution.latestEventTimestamp at hlt ⊢
    split
    · rename_i hexists
      rw [if_pos hexists] at hlt
      exact (hconsistent.window hexists hlt).symm
    · rfl
  · rw [if_neg heq.not_lt, hconsistent.extent heq]

theorem Consistent.agrees
    (hconsistent : ∀ getTransactions, eventProvider = some getTransactions →
      Consistent c getTransactions controller execution)
    (htimestamp : controller.state.metaState.latestBlockTimestamp ≤ execution.header.timestamp)
    (hlatest : controller.state.metaState.latestEventTimestamp ≤
      controller.state.metaState.latestBlockTimestamp)
    (h : executeCoreTransactions c eventProvider execution.header execution.coreTxs controller =
      .ok appState controller') : Agrees c eventProvider appState controller'.state := by
  rcases metaState_of_executed h with ⟨hblock, hevent, hnonce, eventTxs, hevents, hroot⟩
  intro pool currentTimestamp selected state' hpool hselect
  rcases eventsOf_selected hpool hselect with ⟨selectedTxs, hselected, heventsOf⟩
  rw [hblock] at hselected
  rw [heventsOf, hroot]
  cases eventProvider with
  | none =>
      have hnone : selectedTxs = [] := by
        unfold eventsUntil at hselected
        split at hselected
        · cases hselected
          rfl
        · cases hselected
          rfl
      cases hevents
      rw [hnone]
      rfl
  | some getTransactions =>
      have hgiven := hconsistent getTransactions rfl
      have hle : execution.latestEventTimestamp controller.state.metaState ≤
          execution.header.timestamp := by
        unfold Execution.latestEventTimestamp
        split
        · exact htimestamp
        · exact hlatest.trans htimestamp
      have hsame : (.ok eventTxs : Result (List UniqysKit.Transaction)) = .ok selectedTxs := by
        rw [← hselected, hgiven.eventsUntil_eq hle hevent hnonce, ← hevents]
        rfl
      cases hsame
      -- what the provider gives are event transactions, so the selection drops none
      have hall : eventsOf eventTxs = eventTxs :=
        List.filter_eq_self.mpr fun coreTx hmem => by
          simpa using hgiven.events eventTxs hevents coreTx hmem
      rw [hall]

end

/-! ## Histories -/

variable (c) in
/-- The controller over stores that were empty when it was connected. -/
def connected (timestamp : Nat) (initialValidatorSet : ValidatorSet) (memcachedImpl : EasyMemcached) :
    Controller :=
  ⟨Fallible.final (State.ready c timestamp initialValidatorSet (State.new c)), memcachedImpl⟩

/-- No event is later than the latest block. -/
def Timely (controller : Controller) : Prop :=
  controller.state.metaState.latestEventTimestamp ≤ controller.state.metaState.latestBlockTimestamp

theorem timely_connected (timestamp : Nat) (initialValidatorSet : ValidatorSet)
    (memcachedImpl : EasyMemcached) :
    Timely (connected c timestamp initialValidatorSet memcachedImpl) := by
  rcases MerklePatriciaTrie.ready_new c with ⟨trie, hready, -⟩
  have htop : State.onTop (MerklePatriciaTrie.ready c) (State.new c) =
      .ok () { State.new c with top := trie } := by
    simp only [State.onTop, State.new, hready]
  unfold Timely connected
  rw [State.ready, Fallible.bind_ok htop]
  exact le_rfl

theorem Proper.timely {controller : Controller} {execution : Execution}
    (h : Proper c eventProvider controller execution) (htimely : Timely controller) :
    Timely (execute c eventProvider controller execution) := by
  rcases h.executed with ⟨appState, controller', hexecuted⟩
  rcases metaState_of_executed hexecuted with ⟨hblock, hevent, -, -⟩
  unfold Timely execute
  rw [hexecuted, Fallible.final_ok, hblock, hevent, Execution.latestEventTimestamp]
  split
  · exact h.timestamp
  · exact htimely.trans h.timestamp

/-- In every history whose blocks meet the condition, proposer and validators agree on the next
events after each block. -/
theorem events_agree (c : Crypto) (eventProvider : Option EventProvider) (timestamp : Nat)
    (initialValidatorSet : ValidatorSet) (memcachedImpl : EasyMemcached)
    (executions : List Execution)
    (hproper : Along (execute c eventProvider)
      (connected c timestamp initialValidatorSet memcachedImpl) executions (Proper c eventProvider))
    (hconsistent : Along (execute c eventProvider)
      (connected c timestamp initialValidatorSet memcachedImpl) executions
      fun controller execution => ∀ getTransactions, eventProvider = some getTransactions →
        Consistent c getTransactions controller execution) :
    Along (execute c eventProvider) (connected c timestamp initialValidatorSet memcachedImpl)
      executions fun controller execution => ∀ appState controller',
        executeCoreTransactions c eventProvider execution.header execution.coreTxs controller =
          .ok appState controller' →
        Agrees c eventProvider appState controller'.state := by
  have htimely := hproper.throughout (timely_connected timestamp initialValidatorSet memcachedImpl)
    fun controller execution htimely hstep => hstep.timely htimely
  intro before execution after hexecutions appState controller' hexecuted
  exact Consistent.agrees (hconsistent before execution after hexecutions)
    (hproper before execution after hexecutions).timestamp
    (htimely before (execution :: after) hexecutions) hexecuted

/-! ### One event -/

/-- The data of the transaction that an event is packed to. -/
def eventData (nonce : Nat) : Bytes :=
  (Transaction.serialize ⟨nonce, ⟨"POST", "/eth", [], []⟩⟩).toOption.getD []

/-- The transaction for the event as the first one. -/
def firstEvent : UniqysKit.Transaction := ⟨1, eventData 1, Transaction.one_lt, by decide +kernel⟩

/-- The transaction for the event as the second one. -/
def secondEvent : UniqysKit.Transaction := ⟨1, eventData 2, Transaction.one_lt, by decide +kernel⟩

/-- A provider that knows of one event, at the time 15. -/
def oneEvent : EventProvider := fun fromTimestamp toTimestamp nonce =>
  if fromTimestamp ≤ 15 ∧ 15 < toTimestamp then
    .ok [if nonce = 1 then firstEvent else secondEvent]
  else .ok []

/-- The block of time 20 has no event. -/
def quietBlock : Execution := ⟨{ blankHeader with timestamp := 20, timestamp_lt := by decide }, []⟩

theorem thirty_lt : 30 < 2 ^ 48 := by decide

/-- The block of time 30 has the event. -/
def eventBlock : Execution :=
  ⟨{ blankHeader with timestamp := 30, timestamp_lt := thirty_lt },
    [(firstEvent, ⟨[], .ok ⟨200, "OK", [], []⟩⟩)]⟩

def eventController : Controller := connected .transparent 10 ⟨[]⟩ ⟨false, .readOnly⟩

theorem proper_of_value {controller : Controller} {execution : Execution}
    {selected : Option (List UniqysKit.Transaction)}
    (hexecuted : (Fallible.value (executeCoreTransactions .transparent (some oneEvent)
      execution.header execution.coreTxs controller)).isSome = true)
    (htimestamp : controller.state.metaState.latestBlockTimestamp ≤ execution.header.timestamp)
    (hselect : Fallible.value (selectTransactions .transparent (some oneEvent) 0 []
      controller.state) = some selected)
    (hevents : eventsOf (execution.coreTxs.map Prod.fst) = eventsOf (selected.getD [])) :
    Proper .transparent (some oneEvent) controller execution := by
  rcases Option.isSome_iff_exists.mp hexecuted with ⟨appState, hvalue⟩
  exact ⟨⟨appState, _, ok_of_value hvalue⟩, htimestamp, [], 0, selected, _, ok_of_value hselect,
    hevents⟩

theorem proper_quietBlock : Proper .transparent (some oneEvent) eventController quietBlock :=
  @proper_of_value _ _ none (by decide +kernel) (by decide +kernel) (by decide +kernel)
    (by decide +kernel)

/-- After the block without the event the two agree, on the event. -/
theorem events_agree_quiet :
    Along (execute .transparent (some oneEvent)) eventController [quietBlock]
      fun controller execution => ∀ appState controller',
        executeCoreTransactions .transparent (some oneEvent) execution.header execution.coreTxs
          controller = .ok appState controller' →
        Agrees .transparent (some oneEvent) appState controller'.state := by
  refine events_agree .transparent (some oneEvent) 10 ⟨[]⟩ ⟨false, .readOnly⟩ [quietBlock]
    (along_cons proper_quietBlock along_nil) (along_cons ?_ along_nil)
  rintro getTransactions ⟨⟩
  refine ⟨by decide +kernel, by decide +kernel, ?_⟩
  intro metaState eventTxs hevents
  have hgiven : oneEvent metaState.latestEventTimestamp quietBlock.header.timestamp
      (quietBlock.nextEventNonce .transparent metaState) = .ok [firstEvent] := by decide +kernel
  cases hgiven.symm.trans hevents
  decide +kernel

/-- After the block with the event the validators expect it once more, and the proposer does not. -/
theorem events_disagree :
    Along (execute .transparent (some oneEvent)) eventController [quietBlock, eventBlock]
      (Proper .transparent (some oneEvent)) ∧
    ∃ appState controller',
      executeCoreTransactions .transparent (some oneEvent) eventBlock.header eventBlock.coreTxs
        (execute .transparent (some oneEvent) eventController quietBlock) =
          .ok appState controller' ∧
      ¬ Agrees .transparent (some oneEvent) appState controller'.state := by
  have hproper : Proper .transparent (some oneEvent)
      (execute .transparent (some oneEvent) eventController quietBlock) eventBlock :=
    @proper_of_value _ _ (some [firstEvent]) (by decide +kernel) (by decide +kernel)
      (by decide +kernel) (by decide +kernel)
  refine ⟨along_cons proper_quietBlock (along_cons hproper along_nil), ?_⟩
  -- after the block that brings the event there are no transactions to select
  have hselect : Fallible.value (selectTransactions .transparent (some oneEvent) 0 []
      (execute .transparent (some oneEvent)
        (execute .transparent (some oneEvent) eventController quietBlock) eventBlock).state) =
      some none := by decide +kernel
  -- but the root that its execution returns is not that of an empty list
  have hroot : (Fallible.value (executeCoreTransactions .transparent (some oneEvent)
      eventBlock.header eventBlock.coreTxs
      (execute .transparent (some oneEvent) eventController quietBlock))).map
        AppState.eventTransactionRoot ≠ some (MerkleTree.root .transparent []) := by decide +kernel
  rcases hproper.executed with ⟨appState, controller', hexecuted⟩
  refine ⟨appState, controller', hexecuted, ?_⟩
  intro hagrees
  rw [hexecuted] at hroot
  rw [execute, hexecuted] at hselect
  have hsame := hagrees [] 0 none _ (by simp) (ok_of_value hselect)
  exact hroot (congrArg some hsame.symm)

end Controller

end EasyFramework
end UniqysKit
