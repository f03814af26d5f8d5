import UniqysKit.EasyFramework.AlikeStates
import UniqysKit.EasyFramework.Writes

/-!
# Restarts

`State.ready` over the store that a crash has left.  Rolling back sets the root in memory only, and the
writes of a block are not one write.  A crash between two of them is harmless where the block can be
executed again on what has landed: nodes that nobody refers to yet, or a root that is the one from
before.  `restart_recovers` says at which crashes nothing is lost.
-/

namespace UniqysKit
namespace EasyFramework

open Library

/-! ## Opening the store again -/

section Definitions

variable (c : Crypto) (timestamp : Nat) (initialValidatorSet : ValidatorSet)

/-- `State.ready` on what a store holds. -/
def State.reopen (disk : Disk) : EStateM.Result Error State Unit :=
  ready c timestamp initialValidatorSet
    ⟨disk.metaState, disk.result, ⟨disk.trie, (MerklePatriciaTrie.new c).rootHash, false⟩⟩

namespace Controller

/-- The trie has the root that is recorded for the stored height, and each block that can come next
gives the same `AppState` as without the restart. -/
def Recovers (eventProvider : Option EventProvider) (disk : Disk) (uninterrupted : Controller) :
    Prop :=
  ∃ state, State.reopen c timestamp initialValidatorSet disk = .ok () state ∧
    state.metaState.appRoot state.metaState.height = some state.top.rootHash ∧
    ∀ execution : Execution,
      Fallible.outcome (executeCoreTransactions c eventProvider execution.header execution.coreTxs
        ⟨state, uninterrupted.memcachedImpl⟩) =
      Fallible.outcome (executeCoreTransactions c eventProvider execution.header execution.coreTxs
        uninterrupted)

/-- A crash in a block, when these of its writes are in the store. If the height is among them, the
block counts as executed. -/
def RecoversFromCrash (eventProvider : Option EventProvider) (execution : Execution)
    (controller : Controller) (persisted : List Write) : Prop :=
  let disk := persisted.foldl (Write.apply c) controller.state.disk
  Recovers c timestamp initialValidatorSet eventProvider disk
    (if disk.metaState.height = controller.state.metaState.height then controller
    else execute c eventProvider controller execution)

/-- The block is executed. -/
def Executed (eventProvider : Option EventProvider) (controller : Controller)
    (execution : Execution) : Prop :=
  ∃ appState controller', executeCoreTransactions c eventProvider execution.header
    execution.coreTxs controller = .ok appState controller'

/-! ### The record of the root -/

/-- The application answers the request with a response that is no error, and the response can be
stored. -/
def answers (header : BlockHeader) (tx : CoreTransaction) (handling : Handling) : Bool :=
  match handling.response with
  | .ok res =>
      !decide (400 ≤ res.status ∧ res.status < 600) &&
        match tx with
        | .normal _ _ _ => (TransactionResult.serialize ⟨header.height, res⟩).toOption.isSome
        | .event _ _ => true
  | .error _ => false

/-- Whether the root of a version is recorded after a transaction that started from it: it was before
and no root was written, or the transaction counts, or the last root it has written is that one. -/
def settles (header : BlockHeader) (tx : CoreTransaction) (handling : Handling) (writes : List Write)
    (root : Hash) (settled : Bool) : Bool :=
  match lastWritten Write.rootHash writes with
  | none => settled
  | some last => answers header tx handling || decide (last = root)

/-- After the transactions of a block. -/
def loopSettles (header : BlockHeader) :
    List (UniqysKit.Transaction × Handling) → Controller → Bool → Bool
  | [], _, settled => settled
  | (coreTx, handling) :: rest, controller, settled =>
      match CoreTransaction.decode c coreTx with
      | .error _ => settled
      | .ok tx =>
          loopSettles header rest
            (Fallible.final (executeTransaction c header tx handling controller))
            (settles header tx handling
              (actionWrites c header controller.memcachedImpl handling tx controller.state)
              controller.state.top.rootHash settled)

/-- After the blocks of a run. -/
def runSettles (eventProvider : Option EventProvider) : List Execution → Controller → Bool → Bool
  | [], _, settled => settled
  | execution :: rest, controller, settled =>
      runSettles eventProvider rest (execute c eventProvider controller execution)
        (loopSettles c execution.header execution.coreTxs controller settled)

/-! ### The condition -/

/-- What `ready` takes for missing in the store is what it sets then, up to what the event provider
makes of the latest event timestamp. -/
structure Refillable (eventProvider : Option EventProvider) (latestEventTimestamp : Nat)
    (disk : Disk) : Prop where
  validators : disk.metaState.nextValidatorSet.validators.length = 0 →
    disk.metaState.nextValidatorSet = initialValidatorSet
  events : AnswersAlike eventProvider disk.metaState.eventNonce latestEventTimestamp
    (if disk.metaState.latestEventTimestamp = 0 then timestamp
    else disk.metaState.latestEventTimestamp)

/-- The writes that have landed leave alone what the block was executed on: the nodes of its version of
the trie and the empty node, the event nonce and the next validator set. -/
structure Spares (state : State) (disk : Disk) : Prop where
  nodes : state.top.store.Agrees disk.trie state.top.rootHash
  null : state.top.store.Agrees disk.trie (Node.null.hash c)
  eventNonce : disk.metaState.eventNonce = state.metaState.eventNonce
  nextValidatorSet : disk.metaState.nextValidatorSet = state.metaState.nextValidatorSet

/-- The condition on a crash. Either it comes before the height is written, what has landed spares the
state before the block, and the last root among it, if any, is the one from before; or it comes after,
and the transactions of the block leave the root recorded. -/
inductive Survivable (eventProvider : Option EventProvider) (execution : Execution)
    (controller : Controller) (settled : Bool) : List Write → Prop
  | during {persisted : List Write} :
      persisted <+: loopWrites c execution.header execution.coreTxs controller →
      (match lastWritten Write.rootHash persisted with
        | none => settled = true
        | some last => last = controller.state.top.rootHash) →
      Spares c controller.state (persisted.foldl (Write.apply c) controller.state.disk) →
      Refillable timestamp initialValidatorSet eventProvider
        controller.state.metaState.latestEventTimestamp
        (persisted.foldl (Write.apply c) controller.state.disk) →
      Survivable eventProvider execution controller settled persisted
  | after {written : List Write} : written ≠ [] →
      loopSettles c execution.header execution.coreTxs controller settled = true →
      Refillable timestamp initialValidatorSet eventProvider
        (execution.latestEventTimestamp controller.state.metaState)
        ((loopWrites c execution.header execution.coreTxs controller ++ written).foldl (Write.apply c)
          controller.state.disk) →
      Survivable eventProvider execution controller settled
        (loopWrites c execution.header execution.coreTxs controller ++ written)

end Controller

end Definitions

variable {c : Crypto}
variable {timestamp : Nat} {initialValidatorSet : ValidatorSet}

/-- What `State.ready` makes of the meta data. -/
def MetaState.filled (timestamp : Nat) (initialValidatorSet : ValidatorSet) (root : Hash)
    (metaState : MetaState) : MetaState :=
  { metaState with
    latestBlockTimestamp :=
      if metaState.latestBlockTimestamp = 0 then timestamp else metaState.latestBlockTimestamp
    latestEventTimestamp :=
      if metaState.latestEventTimestamp = 0 then timestamp else metaState.latestEventTimestamp
    nextValidatorSet :=
      if metaState.nextValidatorSet.validators.length = 0 then initialValidatorSet
      else metaState.nextValidatorSet
    appRoot := Function.update metaState.appRoot metaState.height
      ((metaState.appRoot metaState.height).or (some root)) }

theorem State.ready_eq {state : State} {top : MerklePatriciaTrie}
    (h : MerklePatriciaTrie.ready c state.top = .ok () top) :
    ready c timestamp initialValidatorSet state = .ok ()
      { state with
        metaState := state.metaState.filled timestamp initialValidatorSet top.rootHash
        top } := by
  have htop : onTop (MerklePatriciaTrie.ready c) state = .ok () { state with top } := by
    simp only [onTop, h]
  rw [ready, Fallible.bind_ok htop]
  rfl

namespace Controller

/-! ### The state between two blocks -/

/-- What holds between two blocks. -/
structure Committed (state : State) : Prop where
  isReady : state.top.isReady = true
  appRoot : state.metaState.appRoot state.metaState.height = some state.top.rootHash
  later : ∀ height, state.metaState.height < height → state.metaState.appRoot height = none

theorem committed_connected (memcachedImpl : EasyMemcached) :
    Committed (connected c timestamp initialValidatorSet memcachedImpl).state := by
  rcases MerklePatriciaTrie.ready_new c with ⟨trie, hready, hsound⟩
  unfold connected
  rw [State.ready_eq hready]
  refine ⟨hsound.isReady, ?_, ?_⟩
  · simp only [Fallible.final_ok, MetaState.filled, Function.update_self]
    rfl
  · intro height hlt
    exact Function.update_of_ne (Nat.ne_of_gt hlt) _ _

section

variable {eventProvider : Option EventProvider} {execution : Execution} {controller : Controller}

theorem executeAllCore_isReady {header : BlockHeader}
    {coreTxs : List (UniqysKit.Transaction × Handling)} {controller' : Controller}
    {validTxHashes : List Hash}
    (h : executeAllCore c header coreTxs controller = .ok validTxHashes controller')
    (hready : controller.state.top.isReady = true) : controller'.state.top.isReady = true := by
  induction coreTxs generalizing controller validTxHashes with
  | nil =>
      cases h
      exact hready
  | cons entry rest ih =>
      rcases executeAllCore_cons h with ⟨tx, valid, next, others, -, hexecute, hrest⟩
      exact ih hrest (executeTransaction_isReady hexecute hready)

/-- What a block makes of the state, with the state after its transactions. -/
theorem Executed.parts (h : Executed c eventProvider controller execution) :
    ∃ validTxHashes next eventTxs,
      executeAllCore c execution.header execution.coreTxs controller = .ok validTxHashes next ∧
        eventTransactions eventProvider next.state.metaState execution.header.timestamp =
          .ok eventTxs ∧
        execute c eventProvider controller execution =
          updated c execution.header validTxHashes execution.eventExists next eventTxs := by
  rcases h with ⟨appState, controller', hexecuted⟩
  rcases executeCoreTransactions_iff.mp hexecuted with
    ⟨validTxHashes, next, eventTxs, hloop, hevents, -, hupdated, -⟩
  refine ⟨validTxHashes, next, eventTxs, hloop, hevents, ?_⟩
  rw [execute, hexecuted, Fallible.final_ok, hupdated]
  rfl

/-- The roots of the heights are not changed by the transactions. -/
theorem Committed.afterLoop {validTxHashes : List Hash} {next : Controller}
    (h : Committed controller.state)
    (hloop : executeAllCore c execution.header execution.coreTxs controller =
      .ok validTxHashes next) :
    next.state.top.isReady = true ∧
      next.state.metaState.height = controller.state.metaState.height ∧
      ∀ height, next.state.metaState.height < height → next.state.metaState.appRoot height = none := by
  have hsettled := executeAllCore_settled hloop
  have hheight : next.state.metaState.height = controller.state.metaState.height := by
    simpa using congrArg MetaState.height hsettled
  have hsettledRoots := congrArg MetaState.appRoot hsettled
  have hroots : next.state.metaState.appRoot = controller.state.metaState.appRoot := hsettledRoots
  refine ⟨executeAllCore_isReady hloop h.isReady, hheight, ?_⟩
  rw [hheight, hroots]
  exact h.later

theorem Committed.execute (h : Committed controller.state)
    (hexecuted : Executed c eventProvider controller execution) :
    Committed (execute c eventProvider controller execution).state := by
  rcases hexecuted.parts with ⟨validTxHashes, next, eventTxs, hloop, -, hexecute⟩
  rcases h.afterLoop hloop with ⟨hready, -, hlater⟩
  rw [hexecute]
  refine ⟨hready, Function.update_self .., ?_⟩
  intro height hlt
  have hraised : next.state.metaState.height + 1 < height := hlt
  rw [← hlater height (by omega)]
  exact Function.update_of_ne (by omega) _ _

/-! ### What a root record says -/

/-- The root in memory is the one that is recorded. -/
def InSync (state : State) : Prop :=
  state.top.store.store TrieStore.rootKey = some state.top.rootHash.serialize

theorem inSync_connected (memcachedImpl : EasyMemcached) :
    InSync (connected c timestamp initialValidatorSet memcachedImpl).state := by
  rcases MerklePatriciaTrie.ready_new c with ⟨trie, hready, -⟩
  unfold connected
  rw [State.ready_eq hready]
  exact MerklePatriciaTrie.rootKey_ready_new hready

variable {header : BlockHeader} {tx : CoreTransaction} {handling : Handling}

/-- What follows the first check of a transaction goes through if the application answers. -/
theorem action_ok_of_answers (memcached : EasyMemcached) {state mid : State} {u : Unit}
    (hprepare : prepare c tx state = .ok u mid) (h : answers header tx handling = true) :
    ∃ state', action c header memcached handling tx state = .ok () state' := by
  unfold answers at h
  rw [action_eq, Fallible.bind_ok hprepare]
  cases hresponse : handling.response with
  | error e =>
      rw [hresponse] at h
      cases h
  | ok res =>
      rw [hresponse, Bool.and_eq_true, Bool.not_eq_true', decide_eq_false_iff_not] at h
      have hhandle : handle c memcached handling mid = .ok res
          (Call.serveAll c { memcached with mode := .readWrite } handling.calls mid) := by
        unfold handle
        rw [hresponse]
        rfl
      have hcheck : ∀ state : State, checkStatus res state = .ok () state := by
        intro state
        unfold checkStatus
        rw [if_neg h.1]
        rfl
      rw [Fallible.bind_ok hhandle]
      cases tx with
      | normal hash sender nonce =>
          rcases Option.isSome_iff_exists.mp h.2 with ⟨bytes, hbytes⟩
          have hserialize : TransactionResult.serialize ⟨header.height, res⟩ = .ok bytes := by
            revert hbytes
            cases TransactionResult.serialize ⟨header.height, res⟩ with
            | ok written => exact fun heq => congrArg Except.ok (Option.some.inj heq)
            | error e => exact nofun
          obtain ⟨state', hset⟩ : ∃ state', State.setResult hash ⟨header.height, res⟩
              (Call.serveAll c { memcached with mode := .readWrite } handling.calls mid) =
                .ok () state' := by
            unfold State.setResult
            rw [hserialize]
            exact ⟨_, rfl⟩
          refine ⟨state', ?_⟩
          rw [finish, Fallible.bind_ok hset]
          exact hcheck state'
      | event hash nonce => exact ⟨_, hcheck _⟩

/-- A transaction leaves the root recorded where `settles` says so. -/
theorem inSync_executeTransaction {valid : Bool} {controller next : Controller} {settled : Bool}
    (h : executeTransaction c header tx handling controller = .ok valid next)
    (hbefore : settled = true → InSync controller.state)
    (hsettles : settles header tx handling
      (actionWrites c header controller.memcachedImpl handling tx controller.state)
      controller.state.top.rootHash settled = true) : InSync next.state := by
  have hheld := foldl_actionWrites (c := c) header controller.memcachedImpl handling tx
    controller.state
  rw [foldl_take] at hheld
  have hdisk := congrArg Held.disk hheld
  have hroot := congrArg Held.rootHash hheld
  have hrecord := rootKey_foldl (c := c)
    (actionWrites c header controller.memcachedImpl handling tx controller.state)
    controller.state.disk
  have htrie := congrArg Disk.trie hdisk
  simp only [State.held] at hdisk hroot htrie
  rw [htrie] at hrecord
  unfold settles at hsettles
  cases valid with
  | true =>
      rw [executeTransaction_true h] at hroot hrecord
      unfold InSync
      cases hlast : lastWritten Write.rootHash
          (actionWrites c header controller.memcachedImpl handling tx controller.state) with
      | none =>
          rw [hlast] at hroot hrecord hsettles
          rw [← show controller.state.top.rootHash = next.state.top.rootHash from hroot]
          exact hrecord.trans (hbefore hsettles)
      | some last =>
          rw [hlast] at hroot hrecord
          rw [← show last = next.state.top.rootHash from hroot]
          exact hrecord
  | false =>
      rcases executeTransaction_false h with ⟨e, mid, haction, -, hstate⟩
      rw [haction] at hrecord
      unfold InSync
      rw [hstate]
      cases hlast : lastWritten Write.rootHash
          (actionWrites c header controller.memcachedImpl handling tx controller.state) with
      | none =>
          rw [hlast] at hrecord hsettles
          exact hrecord.trans (hbefore hsettles)
      | some last =>
          rw [hlast] at hrecord hsettles
          rw [Bool.or_eq_true, decide_eq_true_eq] at hsettles
          rcases hsettles with hanswers | hlastRoot
          · -- it would have gone through, or not have come to its calls
            exfalso
            cases hprepare : prepare c tx controller.state with
            | ok u mid' =>
                obtain ⟨state', hok⟩ := action_ok_of_answers controller.memcachedImpl hprepare hanswers
                rw [hok] at haction
                cases haction
            | error e' mid' =>
                have hnone := lastWritten_prepareWrites hprepare
                rw [actionWrites, hprepare, List.append_nil, hnone] at hlast
                cases hlast
          · rw [hlastRoot] at hrecord
            exact hrecord

theorem inSync_executeAllCore {coreTxs : List (UniqysKit.Transaction × Handling)}
    {validTxHashes : List Hash} {controller next : Controller} {settled : Bool}
    (h : executeAllCore c header coreTxs controller = .ok validTxHashes next)
    (hbefore : settled = true → InSync controller.state)
    (hsettles : loopSettles c header coreTxs controller settled = true) : InSync next.state := by
  induction coreTxs generalizing controller validTxHashes settled with
  | nil =>
      cases h
      exact hbefore hsettles
  | cons entry rest ih =>
      rcases executeAllCore_cons h with ⟨tx, valid, mid, others, hdecode, hexecute, hrest⟩
      rw [loopSettles, hdecode] at hsettles
      simp only [hexecute, Fallible.final_ok] at hsettles
      exact ih hrest (inSync_executeTransaction hexecute hbefore) hsettles

/-- The record of the root after a run of blocks. -/
theorem inSync_run {executions : List Execution} {controller : Controller} {settled : Bool}
    (hexecuted : Along (execute c eventProvider) controller executions (Executed c eventProvider))
    (hbefore : settled = true → InSync controller.state)
    (hsettles : runSettles c eventProvider executions controller settled = true) :
    InSync (executions.foldl (execute c eventProvider) controller).state := by
  induction executions generalizing controller settled with
  | nil => exact hbefore hsettles
  | cons execution rest ih =>
      rcases along_cons_iff.mp hexecuted with ⟨hfirst, hrest⟩
      refine ih hrest ?_ hsettles
      intro hloopSettles
      rcases hfirst.parts with ⟨validTxHashes, next, eventTxs, hloop, -, hexecute⟩
      have hsync : InSync next.state := inSync_executeAllCore hloop hbefore hloopSettles
      rw [hexecute]
      exact hsync

/-! ### What the store is enough for -/

/-- The store has what executing the next block on this state reads, and no other root for the
height. -/
structure Suffices (c : Crypto) (disk : Disk) (state : State) : Prop where
  root : disk.trie.store TrieStore.rootKey = some state.top.rootHash.serialize
  nodes : state.top.store.Agrees disk.trie state.top.rootHash
  null : state.top.store.Agrees disk.trie (Node.null.hash c)
  height : disk.metaState.height = state.metaState.height
  eventNonce : disk.metaState.eventNonce = state.metaState.eventNonce
  nextValidatorSet : disk.metaState.nextValidatorSet = state.metaState.nextValidatorSet
  appRoot : (disk.metaState.appRoot state.metaState.height).or (some state.top.rootHash) =
    some state.top.rootHash

theorem Suffices.recovers {disk : Disk} (h : Suffices c disk controller.state)
    (hready : controller.state.top.isReady = true)
    (hrefillable : Refillable timestamp initialValidatorSet eventProvider
      controller.state.metaState.latestEventTimestamp disk) :
    Recovers c timestamp initialValidatorSet eventProvider disk controller := by
  refine ⟨_, State.ready_eq (MerklePatriciaTrie.ready_of_root h.root), ?_, ?_⟩
  · show Function.update disk.metaState.appRoot disk.metaState.height _ disk.metaState.height = _
    rw [Function.update_self, h.height]
    exact h.appRoot
  · intro next
    have hvalidators : (disk.metaState.filled timestamp initialValidatorSet
        controller.state.top.rootHash).nextValidatorSet =
          controller.state.metaState.nextValidatorSet := by
      simp only [MetaState.filled]
      split
      · rename_i hempty
        rw [← hrefillable.validators hempty, h.nextValidatorSet]
      · exact h.nextValidatorSet
    have hevents := hrefillable.events
    rw [h.eventNonce] at hevents
    let reopened : State :=
      ⟨disk.metaState.filled timestamp initialValidatorSet controller.state.top.rootHash,
        disk.result, ⟨disk.trie, controller.state.top.rootHash, true⟩⟩
    have htop : MerklePatriciaTrie.Alike c (fun _ => False) controller.state.top reopened.top :=
      ⟨rfl, hready.symm, h.nodes, h.null, nofun⟩
    have halike : Alike c (fun _ => False) controller ⟨reopened, controller.memcachedImpl⟩ :=
      ⟨⟨htop, h.height, h.eventNonce, hvalidators⟩, rfl⟩
    exact halike.outcome_eq hevents next.header next.coreTxs

/-! ### Crashes while the height is raised -/

/-- A write of what is not read, or of the root of the state. -/
inductive Unread (state : State) : Write → Prop
  | appRoot : Unread state (.appRoot state.metaState.height state.top.rootHash)
  | validTransactionHashes (height : Nat) (hashes : List Hash) :
      Unread state (.validTransactionHashes height hashes)
  | latestEventTimestamp (timestamp : Nat) : Unread state (.latestEventTimestamp timestamp)
  | latestBlockTimestamp (timestamp : Nat) : Unread state (.latestBlockTimestamp timestamp)
  | eventTransactionRoot (root : Hash) : Unread state (.eventTransactionRoot root)

theorem Suffices.foldl {disk : Disk} {state : State} {writes : List Write}
    (h : Suffices c disk state) (hunread : ∀ write ∈ writes, Unread state write) :
    Suffices c (writes.foldl (Write.apply c) disk) state := by
  induction writes generalizing disk with
  | nil => exact h
  | cons write writes ih =>
      refine ih ?_ fun write hmem => hunread write (List.mem_cons_of_mem _ hmem)
      cases hunread write List.mem_cons_self with
      | appRoot =>
          refine ⟨h.root, h.nodes, h.null, h.height, h.eventNonce, h.nextValidatorSet, ?_⟩
          simp only [Write.apply, Function.update_self, Option.some_or]
      | validTransactionHashes | latestEventTimestamp | latestBlockTimestamp | eventTransactionRoot =>
          exact ⟨h.root, h.nodes, h.null, h.height, h.eventNonce, h.nextValidatorSet, h.appRoot⟩

/-- Once the height is written, what comes after it is not read. -/
theorem suffices_newHeightWrites {validTxHashes : List Hash} {eventExists : Bool} {next : Controller}
    {eventTxs : List UniqysKit.Transaction} {written : List Write}
    (hlater : next.state.metaState.appRoot (next.state.metaState.height + 1) = none)
    (hsync : InSync next.state)
    (hwritten : written <+: newHeightWrites header.timestamp validTxHashes eventExists
      (MerkleTree.root c (eventTxs.map (UniqysKit.Transaction.hash c))) next.state)
    (hne : written ≠ []) :
    Suffices c (written.foldl (Write.apply c) next.state.disk)
      (updated c header validTxHashes eventExists next eventTxs).state := by
  obtain ⟨first, rest, rfl⟩ := List.exists_cons_of_ne_nil hne
  have hcons := List.cons_prefix_cons.mp hwritten
  rw [List.foldl_cons, hcons.1]
  refine Suffices.foldl ⟨hsync, fun _ _ => rfl, fun _ _ => rfl, rfl, rfl, rfl, ?_⟩ ?_
  · show (next.state.metaState.appRoot (next.state.metaState.height + 1)).or _ = _
    rw [hlater]
    rfl
  · intro write hmem
    have hmem' := hcons.2.subset hmem
    rcases List.mem_append.mp hmem' with hmem' | hmem'
    · rcases List.mem_append.mp hmem' with hmem' | hmem'
      · rcases List.mem_cons.mp hmem' with rfl | hmem'
        · exact .appRoot
        · rw [List.mem_singleton.mp hmem']
          exact .validTransactionHashes _ _
      · split at hmem'
        · rw [List.mem_singleton.mp hmem']
          exact .latestEventTimestamp _
        · exact (List.not_mem_nil hmem').elim
    · rcases List.mem_cons.mp hmem' with rfl | hmem'
      · exact .latestBlockTimestamp _
      · rw [List.mem_singleton.mp hmem']
        exact .eventTransactionRoot _

/-! ### Crashes -/

/-- Before the height is written the block can be executed again. -/
theorem recovers_during {persisted : List Write} {settled : Bool} (hcommitted : Committed controller.state)
    (hsync : settled = true → InSync controller.state)
    (hpersisted : persisted <+: loopWrites c execution.header execution.coreTxs controller)
    (hroot : match lastWritten Write.rootHash persisted with
      | none => settled = true
      | some last => last = controller.state.top.rootHash)
    (hspares : Spares c controller.state (persisted.foldl (Write.apply c) controller.state.disk))
    (hrefillable : Refillable timestamp initialValidatorSet eventProvider
      controller.state.metaState.latestEventTimestamp
      (persisted.foldl (Write.apply c) controller.state.disk)) :
    RecoversFromCrash c timestamp initialValidatorSet eventProvider execution controller
      persisted := by
  have hof : ∀ write ∈ persisted, write.ofTransaction = true :=
    fun write hmem => ofTransaction_loopWrites _ _ write (hpersisted.subset hmem)
  rcases foldl_ofTransaction (c := c) hof controller.state.disk with ⟨hheight, happRoot, -⟩
  have hrecord := rootKey_foldl (c := c) persisted controller.state.disk
  have hcontroller : controller.state.disk.metaState.height = controller.state.metaState.height := rfl
  rw [hcontroller] at hheight
  unfold RecoversFromCrash
  simp only
  rw [if_pos hheight]
  refine Suffices.recovers ⟨?_, hspares.nodes, hspares.null, hheight, hspares.eventNonce,
    hspares.nextValidatorSet, ?_⟩ hcommitted.isReady hrefillable
  · rw [hrecord]
    cases hlast : lastWritten Write.rootHash persisted with
    | none =>
        rw [hlast] at hroot
        exact hsync hroot
    | some last =>
        rw [hlast] at hroot
        rw [← hroot]
  · rw [happRoot]
    show (controller.state.metaState.appRoot _).or _ = _
    rw [hcommitted.appRoot, Option.some_or]

theorem Survivable.recovers {persisted : List Write} {settled : Bool}
    (h : Survivable c timestamp initialValidatorSet eventProvider execution controller settled
      persisted)
    (hcommitted : Committed controller.state) (hsync : settled = true → InSync controller.state)
    (hexecuted : Executed c eventProvider controller execution)
    (hpersisted : persisted <+: blockWrites c eventProvider execution controller) :
    RecoversFromCrash c timestamp initialValidatorSet eventProvider execution controller
      persisted := by
  cases h with
  | during hduring hroot hspares hrefillable =>
      exact recovers_during hcommitted hsync hduring hroot hspares hrefillable
  | after hne hsettles hrefillable =>
      rename_i written
      rcases hexecuted.parts with ⟨validTxHashes, next, eventTxs, hloop, hevents, hexecute⟩
      rcases hcommitted.afterLoop hloop with ⟨-, hheight, hlater⟩
      -- the transactions are in the store
      rw [blockWrites, List.prefix_append_right_inj, hloop] at hpersisted
      simp only [hevents] at hpersisted
      have hsuffices : Suffices c (written.foldl (Write.apply c) next.state.disk)
          (execute c eventProvider controller execution).state := by
        rw [hexecute]
        exact suffices_newHeightWrites (hlater _ (Nat.lt_succ_self _))
          (inSync_executeAllCore hloop hsync hsettles) hpersisted hne
      have hraised : (execute c eventProvider controller execution).state.metaState.height =
          controller.state.metaState.height + 1 := by
        rw [hexecute, ← hheight]
        rfl
      have hsince : (execute c eventProvider controller execution).state.metaState.latestEventTimestamp =
          execution.latestEventTimestamp controller.state.metaState := by
        have hsettled := executeAllCore_settled hloop
        have hblock : next.state.metaState.latestBlockTimestamp =
            controller.state.metaState.latestBlockTimestamp := by
          simpa using congrArg MetaState.latestBlockTimestamp hsettled
        have hevent : next.state.metaState.latestEventTimestamp =
            controller.state.metaState.latestEventTimestamp := by
          simpa using congrArg MetaState.latestEventTimestamp hsettled
        rw [hexecute, Execution.latestEventTimestamp, ← hblock, ← hevent]
        rfl
      unfold RecoversFromCrash
      rw [List.foldl_append, foldl_loopWrites hloop] at hrefillable ⊢
      simp only
      rw [if_neg (by rw [hsuffices.height, hraised]; exact Nat.succ_ne_self _)]
      rw [← hsince] at hrefillable
      exact hsuffices.recovers (hcommitted.execute hexecuted).isReady hrefillable

end

/-- The application sets a key when the event comes. -/
def storingBlock : Execution :=
  ⟨{ blankHeader with timestamp := 30, timestamp_lt := thirty_lt },
    [(firstEvent, ⟨[.set [107] 0 [1]], .ok ⟨200, "OK", [], []⟩⟩)]⟩

/-- The application sets a key, and the connection breaks. -/
def brokenBlock : Execution :=
  ⟨{ blankHeader with timestamp := 30, timestamp_lt := thirty_lt },
    [(firstEvent, brokenConnection)]⟩

theorem executed_of_value {controller : Controller} {execution : Execution}
    (h : (Fallible.value (executeCoreTransactions .transparent none execution.header
      execution.coreTxs controller)).isSome = true) :
    Executed .transparent none controller execution := by
  rcases Option.isSome_iff_exists.mp h with ⟨appState, hvalue⟩
  exact ⟨appState, _, ok_of_value hvalue⟩

end Controller

end EasyFramework
end UniqysKit
