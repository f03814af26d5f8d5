import UniqysKit.Blockchain.InclusionProof
import UniqysKit.EasyFramework.TransactionParts
import UniqysKit.EasyFramework.Transaction

/-!
# From the bytes of a block to the next app state

`Controller.validateTransaction` and `Controller.executeTransactions` on core transactions, whose
data they decode.  Validation takes the data for a signed transaction whatever the type byte says.
Execution looks at the type byte first, and what it decodes or throws then is outside of the `try`
that makes a transaction a failed one.  `executes_iff` says for which blocks of validated
transactions it comes to an end.
-/

namespace UniqysKit
namespace EasyFramework

open Library

/-! ## Decoding -/

namespace CoreTransaction

/-- The `switch` over the type of a core transaction. -/
def decode (c : Crypto) (coreTx : UniqysKit.Transaction) : Result CoreTransaction :=
  if coreTx.type = TransactionType.normal.toNat then do
    let (tx, _) ← SignedTransaction.deserialize c coreTx.data
    return .normal (coreTx.hash c) tx.signer tx.nonce
  else if coreTx.type = TransactionType.event.toNat then do
    let (tx, _) ← Transaction.deserialize c coreTx.data
    return .event (coreTx.hash c) tx.nonce
  else throw ⟨""⟩

end CoreTransaction

/-- What `getTransactions` comes to: the transactions for the events between two times, with nonces
from the given one on, or the error its promise is rejected with. -/
abbrev EventProvider := Nat → Nat → Nat → Result (List UniqysKit.Transaction)

structure ControllerOptions where
  transactionSizeLimit : Nat := 8 * 1024 * 1024

namespace State

/-- `AppStateHash` is a Merkle root of `appRoot` and the properly executed transactions. -/
def getMerkleRoot (c : Crypto) (appRoot : Hash) (validTxHashes : List Hash) : Hash :=
  MerkleTree.root c (appRoot :: validTxHashes)

def getMerkleProof (c : Crypto) (state : State) (height : Nat) (target : Hash) : Result (List Hash) :=
  let validTxHashes := state.metaState.validTransactionHashes height
  let appRoot := (state.metaState.appRoot height).getD Hash.zero
  MerkleTree.proof c (appRoot :: validTxHashes) target

def getAppState (c : Crypto) (state : State) : AppState :=
  let metaState := state.metaState
  let height := metaState.height
  ⟨height,
    getMerkleRoot c ((metaState.appRoot height).getD Hash.zero)
      (metaState.validTransactionHashes height),
    metaState.nextValidatorSet,
    metaState.eventTransactionRoot.getD (MerkleTree.root c [])⟩

end State

namespace Controller

open State

section Definitions

variable (c : Crypto)

/-- The body of the `try` of `validateTransaction`. -/
def checkTransaction (options : ControllerOptions) (coreTx : UniqysKit.Transaction) :
    Action State Unit := do
  let (tx, _) ← Action.fromResult (SignedTransaction.deserialize c coreTx.data)
  let nonce := (← getAccount tx.signer).nonce
  let got := tx.nonce
  if got ≤ nonce then throw ⟨s!"transaction nonce is too low: current {nonce}, got {got}"⟩
  let transactionSize := coreTx.serialize.length
  let limit := options.transactionSizeLimit
  if transactionSize > limit then
    throw ⟨s!"transaction size exceeds the limit: limit {limit} bytes, got {transactionSize} bytes"⟩

def validateTransaction (options : ControllerOptions) (coreTx : UniqysKit.Transaction)
    (state : State) : Bool :=
  match checkTransaction c options coreTx state with
  | .ok _ _ => true
  | .error _ _ => false

/-- The loop over the core transactions of a block. -/
def executeAllCore (header : BlockHeader) :
    List (UniqysKit.Transaction × Handling) → Action Controller (List Hash)
  | [] => return []
  | (coreTx, handling) :: rest => do
      let tx ← Action.fromResult (CoreTransaction.decode c coreTx)
      let valid ← executeTransaction c header tx handling
      let others ← executeAllCore header rest
      return if valid then tx.hash :: others else others

/-- The events since the latest event timestamp, none without a provider. -/
def eventTransactions (eventProvider : Option EventProvider) (metaState : MetaState) (timestamp : Nat) :
    Result (List UniqysKit.Transaction) :=
  match eventProvider with
  | some getTransactions =>
      getTransactions metaState.latestEventTimestamp timestamp (metaState.eventNonce + 1)
  | none => .ok []

/-- The last part of `executeTransactions`, with the root of the next events. What the event provider
throws is not caught. -/
def updateStateInfo (eventProvider : Option EventProvider) (header : BlockHeader)
    (validTxHashes : List Hash) (eventExists : Bool) : Action Controller Unit := fun controller =>
  match eventTransactions eventProvider controller.state.metaState header.timestamp with
  | .error e => .error e controller
  | .ok eventTxs =>
      let eventTxRoot := MerkleTree.root c (eventTxs.map (UniqysKit.Transaction.hash c))
      match newHeight header.timestamp validTxHashes eventExists eventTxRoot controller.state with
      | .ok _ state => .ok () { controller with state }
      | .error e state => .error e { controller with state }

/-- `executeTransactions` from the bytes on. -/
def executeCoreTransactions (eventProvider : Option EventProvider) (header : BlockHeader)
    (coreTxs : List (UniqysKit.Transaction × Handling)) : Action Controller AppState := do
  let validTxHashes ← executeAllCore c header coreTxs
  let eventExists := coreTxs.any fun (coreTx, _) => coreTx.type = TransactionType.event.toNat
  updateStateInfo c eventProvider header validTxHashes eventExists
  return getAppState c (← get).state

/-- The type of the transaction is one that execution knows, and its data are what execution takes
them for. -/
def Executable (coreTx : UniqysKit.Transaction) : Prop := ∃ tx, CoreTransaction.decode c coreTx = .ok tx

end Definitions

end Controller

/-! ## What transactions leave alone -/

section Settled

variable {c : Crypto}

namespace MetaState

/-- The meta data that the application cannot change. -/
def settled (metaState : MetaState) : MetaState := { metaState with nextValidatorSet := ⟨[]⟩ }

def withEventNonce (metaState : MetaState) (eventNonce : Nat) : MetaState :=
  { metaState with eventNonce }

variable (metaState : MetaState) (eventNonce : Nat)

@[simp] theorem settled_height : metaState.settled.height = metaState.height := rfl

@[simp] theorem settled_latestBlockTimestamp :
    metaState.settled.latestBlockTimestamp = metaState.latestBlockTimestamp := rfl

@[simp] theorem settled_latestEventTimestamp :
    metaState.settled.latestEventTimestamp = metaState.latestEventTimestamp := rfl

@[simp] theorem settled_eventNonce : metaState.settled.eventNonce = metaState.eventNonce := rfl

@[simp] theorem withEventNonce_height :
    (metaState.withEventNonce eventNonce).height = metaState.height := rfl

@[simp] theorem withEventNonce_latestBlockTimestamp :
    (metaState.withEventNonce eventNonce).latestBlockTimestamp = metaState.latestBlockTimestamp := rfl

@[simp] theorem withEventNonce_latestEventTimestamp :
    (metaState.withEventNonce eventNonce).latestEventTimestamp = metaState.latestEventTimestamp := rfl

@[simp] theorem withEventNonce_eventNonce :
    (metaState.withEventNonce eventNonce).eventNonce = eventNonce := rfl

variable {metaState} in
/-- Apart from the next validator set, settled meta data are the meta data. -/
theorem eq_of_settled {metaState' : MetaState} (h : metaState'.settled = metaState.settled) :
    metaState' = { metaState with nextValidatorSet := metaState'.nextValidatorSet } :=
  congrArg (fun settled : MetaState => { settled with
    nextValidatorSet := metaState'.nextValidatorSet }) h

variable {metaState} in
theorem settled_withEventNonce {metaState' : MetaState} (h : metaState.settled = metaState'.settled) :
    (metaState.withEventNonce eventNonce).settled = (metaState'.withEventNonce eventNonce).settled :=
  congrArg (fun settled : MetaState => { settled with eventNonce }) h

end MetaState

/-- The action leaves these alone. -/
abbrev Settles {α : Type} (action : Action State α) : Prop :=
  Fallible.Respects (.constant fun state : State => state.metaState.settled) action

/-- The state with other meta data. The application sees and changes the next validator set only. -/
def State.withMeta (state : State) (metaState : MetaState) : State :=
  { state with
    metaState := { metaState with nextValidatorSet := state.metaState.nextValidatorSet } }

/-- The action neither reads nor changes the meta data that the application cannot change. -/
abbrev Apart {α : Type} (action : Action State α) : Prop :=
  ∀ metaState, Fallible.Commutes (fun state => state.withMeta metaState) action

namespace Apart

variable {α β : Type}

theorem pure (a : α) : Apart (Pure.pure a) := fun _ => .pure a

theorem throw (e : Error) : Apart (throw e : Action State α) := fun _ => .throw e

theorem bind {x : Action State α} {f : α → Action State β} (hx : Apart x) (hf : ∀ a, Apart (f a)) :
    Apart (x >>= f) :=
  fun metaState => (hx metaState).bind fun a => hf a metaState

/-- What goes on with its own meta data leaves them as they are. -/
theorem settles {action : Action State α} (h : Apart action) : Settles action := by
  intro state
  have hfinal := congrArg Fallible.final (h state.metaState state)
  rw [Fallible.final_mapState] at hfinal
  exact congrArg (fun state => state.metaState.settled) hfinal

end Apart

theorem apart_onTop {α : Type} (action : Action MerklePatriciaTrie α) :
    Apart (State.onTop action) := by
  intro metaState state
  have htop : (state.withMeta metaState).top = state.top := rfl
  simp only [State.onTop, htop]
  cases action state.top with
  | ok a top => rfl
  | error e top => rfl

theorem apart_fromResult {α : Type} (r : Result α) : Apart (Action.fromResult r) := by
  cases r with
  | ok a => exact .pure a
  | error e => exact .throw e

theorem apart_getAccount (address : Address) : Apart (State.getAccount address) :=
  (apart_onTop _).bind fun _ => apart_fromResult _

theorem apart_setAccount (address : Address) (account : Account) :
    Apart (State.setAccount c address account) :=
  (apart_fromResult _).bind fun _ => (apart_fromResult _).bind fun _ => apart_onTop _

namespace EasyMemcached

variable (memcached : EasyMemcached)

theorem apart_checkWritable : Apart memcached.checkWritable := by
  unfold checkWritable
  split
  · exact .throw _
  · exact .pure _

theorem apart_getItem (key : Bytes) : Apart (memcached.getItem key) := by
  refine (apart_onTop _).bind ?_
  intro value
  cases value with
  | some v => exact (apart_fromResult _).bind fun _ => .pure _
  | none => exact .pure _

theorem apart_setItem (key : Bytes) (item : Item) : Apart (memcached.setItem c key item) :=
  (apart_fromResult _).bind fun _ => (apart_fromResult _).bind fun _ => apart_onTop _

theorem apart_set (key : Bytes) (flags : Int) (data : Bytes) :
    Apart (memcached.set c key flags data) := by
  refine memcached.apart_checkWritable.bind fun _ => ?_
  split
  · exact (memcached.apart_getItem key).bind fun _ => memcached.apart_setItem key _
  · exact memcached.apart_setItem key _

theorem apart_getAndAct (key : Bytes) (action : Option Item → Option Item) :
    Apart (memcached.getAndAct c key action) := by
  refine memcached.apart_checkWritable.bind fun _ => (memcached.apart_getItem key).bind ?_
  intro item
  split
  · exact memcached.apart_setItem key _
  · exact .pure _

theorem apart_gets (keys : List Bytes) : Apart (memcached.gets keys) := by
  induction keys with
  | nil => exact .pure _
  | cons key keys ih =>
      refine (apart_onTop _).bind ?_
      intro value
      cases value with
      | none => exact ih
      | some v =>
          simp only
          cases Item.deserialize memcached.useCas v with
          | error e => exact .pure _
          | ok item => exact ih.bind fun found => .pure _

theorem apart_delete (key : Bytes) : Apart (memcached.delete c key) := by
  refine memcached.apart_checkWritable.bind fun _ => (memcached.apart_getItem key).bind ?_
  intro item
  cases item with
  | some item => exact apart_onTop _
  | none => exact .pure _

theorem apart_flush : Apart (memcached.flush c) :=
  memcached.apart_checkWritable.bind fun _ => apart_onTop _

end EasyMemcached

namespace InnerApi

theorem apart_assert400 {α : Type} (value : Option α) : Apart (assert400 value) := by
  cases value with
  | some a => exact .pure a
  | none => exact .throw _

theorem apart_readAccount (address : Option Address) : Apart (readAccount address) :=
  (apart_assert400 address).bind fun address => apart_getAccount address

theorem apart_putBalance (address : Option Address) (balance : Option ℚ) :
    Apart (putBalance c address balance) :=
  (apart_assert400 address).bind fun address => (apart_assert400 _).bind fun _ =>
    (apart_getAccount address).bind fun _ => apart_setAccount address _

theorem apart_transfer (fromAddress toAddress : Option Address) (value : Option ℚ) :
    Apart (transfer c fromAddress toAddress value) :=
  (apart_assert400 fromAddress).bind fun fromAddress =>
    (apart_assert400 toAddress).bind fun toAddress => (apart_assert400 _).bind fun _ =>
      (apart_getAccount fromAddress).bind fun _ => (apart_fromResult _).bind fun _ =>
        (apart_setAccount fromAddress _).bind fun _ =>
          (apart_getAccount toAddress).bind fun _ => apart_setAccount toAddress _

theorem apart_putValidators (body : List (Option Address × PowerValue)) : Apart (putValidators body) :=
  (apart_assert400 _).bind fun _ => (apart_fromResult _).bind fun _ => fun _ => .modify fun _ => rfl

end InnerApi

namespace Call

theorem apart_run (memcached : EasyMemcached) (call : Call) : Apart (call.run c memcached) := by
  cases call with
  | other => exact .pure ()
  | retrieve keys withCas => exact (memcached.apart_gets keys).bind fun _ => .pure ()
  | getAccount address part =>
      exact (InnerApi.apart_readAccount address).bind fun _ => .pure ()
  | set key flags data => exact memcached.apart_set key flags data
  | add key flags data => exact memcached.apart_getAndAct key _
  | replace key flags data => exact memcached.apart_getAndAct key _
  | append key data => exact memcached.apart_getAndAct key _
  | prepend key data => exact memcached.apart_getAndAct key _
  | cas key flags casUniq data => exact memcached.apart_getAndAct key _
  | delete key => exact memcached.apart_delete key
  | incr key value => exact memcached.apart_getAndAct key _
  | decr key value => exact memcached.apart_getAndAct key _
  | flush => exact memcached.apart_flush
  | putBalance address balance => exact InnerApi.apart_putBalance address balance
  | transfer fromAddress toAddress value => exact InnerApi.apart_transfer fromAddress toAddress value
  | putValidators body => exact InnerApi.apart_putValidators body

/-- The calls of a request. -/
theorem apart_serveAll (memcached : EasyMemcached) (calls : List Call) :
    Apart (modify (serveAll c memcached calls)) := by
  intro metaState
  refine .modify ?_
  intro state
  induction calls generalizing state with
  | nil => rfl
  | cons call calls ih =>
      have hserve : call.serve c memcached (state.withMeta metaState) =
          (call.serve c memcached state).withMeta metaState := by
        unfold serve
        rw [apart_run memcached call metaState state, Fallible.final_mapState]
      calc
        _ = serveAll c memcached calls (call.serve c memcached (state.withMeta metaState)) := rfl
        _ = serveAll c memcached calls ((call.serve c memcached state).withMeta metaState) := by
              rw [hserve]
        _ = _ := ih _

end Call

namespace Controller

open State

/-- The event nonce after a transaction. An event transaction counts if its nonce is the next one,
even if it fails then. -/
def nextEventNonce (eventNonce : Nat) : CoreTransaction → Nat
  | .normal _ _ _ => eventNonce
  | .event _ nonce =>
      if nonce = eventNonce + 1 ∧ eventNonce + 1 < 2 ^ 48 then eventNonce + 1 else eventNonce

theorem incrementEventNonce_eq (state : State) :
    incrementEventNonce state =
      if state.metaState.eventNonce + 1 < 2 ^ 48 then
        .ok () { state with
          metaState := state.metaState.withEventNonce (state.metaState.eventNonce + 1) }
      else .error ⟨"The number is out of 48bit range"⟩ state := by
  unfold incrementEventNonce
  rw [Fallible.get_bind]
  by_cases hlt : state.metaState.eventNonce + 1 < 2 ^ 48
  · rw [Action.fromResult_bind_ok (UInt64.serialize_of_lt hlt), if_pos hlt]
    rfl
  · rw [Action.fromResult_bind_error (UInt64.serialize_of_not_lt hlt), if_neg hlt]

theorem prepare_event_eq (hash : Hash) (nonce : Nat) (state : State) :
    prepare c (.event hash nonce) state =
      if nonce = state.metaState.eventNonce + 1 then incrementEventNonce state
      else .error ⟨"non continuous nonce"⟩ state := by
  simp only [prepare]
  rw [Fallible.get_bind]
  by_cases hnonce : nonce = state.metaState.eventNonce + 1
  · rw [if_neg (not_not.mpr hnonce), if_pos hnonce]
  · rw [if_pos hnonce, if_neg hnonce]
    rfl

theorem apart_prepare (hash : Hash) (sender : Address) (nonce : Nat) :
    Apart (prepare c (.normal hash sender nonce)) := by
  refine (apart_getAccount sender).bind ?_
  intro account
  simp only
  split
  · exact (Apart.throw _).bind fun _ => apart_setAccount sender _
  · exact apart_setAccount sender _

theorem apart_handle (memcached : EasyMemcached) (handling : Handling) :
    Apart (handle c memcached handling) := by
  refine (Call.apart_serveAll _ _).bind fun _ => ?_
  cases handling.response with
  | ok res => exact .pure res
  | error e => exact .throw e

theorem prepare_settled (tx : CoreTransaction) (state : State) :
    (Fallible.final (prepare c tx state)).metaState.settled =
      (state.metaState.withEventNonce (nextEventNonce state.metaState.eventNonce tx)).settled := by
  cases tx with
  | normal hash sender nonce => exact (apart_prepare hash sender nonce).settles state
  | event hash nonce =>
      rw [prepare_event_eq, nextEventNonce]
      by_cases hnonce : nonce = state.metaState.eventNonce + 1
      · rw [if_pos hnonce, incrementEventNonce_eq]
        by_cases hlt : state.metaState.eventNonce + 1 < 2 ^ 48
        · rw [if_pos hlt, if_pos ⟨hnonce, hlt⟩]
          rfl
        · rw [if_neg hlt, if_neg fun h => hlt h.2]
          rfl
      · rw [if_neg hnonce, if_neg fun h => hnonce h.1]
        rfl

theorem apart_finish (header : BlockHeader) (res : HttpResponse) (tx : CoreTransaction) :
    Apart (finish header res tx) := by
  have hcheck : Apart (checkStatus res) := by
    unfold checkStatus
    split
    · exact .throw _
    · exact .pure _
  cases tx with
  | normal hash sender nonce =>
      have hset : Apart (setResult hash ⟨header.height, res⟩) :=
        (apart_fromResult _).bind fun _ => fun _ => .modify fun _ => rfl
      exact hset.bind fun _ => hcheck
  | event hash nonce => exact hcheck

/-- What follows the first check of a transaction. -/
theorem apart_request (header : BlockHeader) (memcached : EasyMemcached) (handling : Handling)
    (tx : CoreTransaction) :
    Apart (do
      let res ← handle c memcached handling
      finish header res tx) :=
  (apart_handle memcached handling).bind fun res => apart_finish header res tx

theorem action_settled (header : BlockHeader) (memcached : EasyMemcached) (handling : Handling)
    (tx : CoreTransaction) (state : State) :
    (Fallible.final (action c header memcached handling tx state)).metaState.settled =
      (state.metaState.withEventNonce (nextEventNonce state.metaState.eventNonce tx)).settled := by
  rw [action_eq, ← prepare_settled (c := c)]
  exact Fallible.Respects.final_bind
    (fun _ => (apart_request header memcached handling tx).settles) state

section

variable {header : BlockHeader} {tx : CoreTransaction} {handling : Handling} {valid : Bool}
  {controller controller' : Controller}

/-- A transaction that came to an end, as valid or as failed, has at most counted as an event. -/
theorem executeTransaction_settled
    (h : executeTransaction c header tx handling controller = .ok valid controller') :
    controller'.state.metaState.settled = (controller.state.metaState.withEventNonce
      (nextEventNonce controller.state.metaState.eventNonce tx)).settled := by
  have hsettled := @action_settled c header controller.memcachedImpl handling tx controller.state
  cases valid with
  | true =>
      rw [executeTransaction_true h] at hsettled
      exact hsettled
  | false =>
      -- the catch branch touches the root of the trie only
      rcases executeTransaction_false h with ⟨e, mid, haction, -, hstate⟩
      rw [haction] at hsettled
      rw [hstate]
      exact hsettled

theorem executeTransaction_isReady
    (h : executeTransaction c header tx handling controller = .ok valid controller')
    (hready : controller.state.top.isReady = true) : controller'.state.top.isReady = true := by
  have hforward := ((@stable_action c header controller.memcachedImpl handling tx).forward
    controller.state).2
  cases valid with
  | true =>
      rw [executeTransaction_true h] at hforward
      exact hforward.trans hready
  | false =>
      rcases executeTransaction_false h with ⟨e, mid, -, hmid, hstate⟩
      rw [hstate]
      exact hmid

end

/-! ## Blocks -/

theorem executable_iff (coreTx : UniqysKit.Transaction) :
    Executable c coreTx ↔
      (coreTx.type = TransactionType.normal.toNat ∧
        ∃ read, SignedTransaction.deserialize c coreTx.data = .ok read) ∨
      (coreTx.type = TransactionType.event.toNat ∧
        ∃ read, Transaction.deserialize c coreTx.data = .ok read) := by
  have hdistinct : TransactionType.event.toNat ≠ TransactionType.normal.toNat := by decide
  unfold Executable CoreTransaction.decode
  by_cases hnormal : coreTx.type = TransactionType.normal.toNat
  · cases hread : SignedTransaction.deserialize c coreTx.data with
    | ok read => simp [hnormal, bind, Except.bind, pure, Except.pure]
    | error e => simp [hnormal, hdistinct.symm, bind, Except.bind]
  · by_cases hevent : coreTx.type = TransactionType.event.toNat
    · cases hread : Transaction.deserialize c coreTx.data with
      | ok read => simp [hevent, hdistinct, bind, Except.bind, pure, Except.pure]
      | error e => simp [hevent, hdistinct, bind, Except.bind]
    · simp [hnormal, hevent, throw, throwThe, MonadExceptOf.throw]

variable (c) in
/-- The event nonce after the transactions of a block. -/
def eventNonceAfter (coreTxs : List (UniqysKit.Transaction × Handling)) (eventNonce : Nat) : Nat :=
  coreTxs.foldl (fun eventNonce (coreTx, _) =>
    match CoreTransaction.decode c coreTx with
    | .ok tx => nextEventNonce eventNonce tx
    | .error _ => eventNonce) eventNonce

theorem eventNonceAfter_cons {coreTx : UniqysKit.Transaction} {tx : CoreTransaction}
    (hdecode : CoreTransaction.decode c coreTx = .ok tx) (handling : Handling)
    (rest : List (UniqysKit.Transaction × Handling)) (eventNonce : Nat) :
    eventNonceAfter c ((coreTx, handling) :: rest) eventNonce =
      eventNonceAfter c rest (nextEventNonce eventNonce tx) := by
  simp only [eventNonceAfter, List.foldl_cons, hdecode]

/-- The loop comes to an end when each transaction can be decoded. -/
theorem executeAllCore_ends (header : BlockHeader)
    (coreTxs : List (UniqysKit.Transaction × Handling)) {controller : Controller}
    (hready : controller.state.top.isReady = true)
    (hall : ∀ entry ∈ coreTxs, Executable c entry.1) :
    ∃ validTxHashes controller',
      executeAllCore c header coreTxs controller = .ok validTxHashes controller' := by
  induction coreTxs generalizing controller with
  | nil => exact ⟨_, _, rfl⟩
  | cons entry rest ih =>
      rcases entry with ⟨coreTx, handling⟩
      rcases hall _ List.mem_cons_self with ⟨tx, hdecode⟩
      rcases executeTransaction_ends (c := c) header tx handling hready with ⟨valid, next, hexecute⟩
      obtain ⟨others, last, hrest⟩ := ih (executeTransaction_isReady hexecute hready)
        fun entry hmem => hall entry (List.mem_cons_of_mem _ hmem)
      refine ⟨if valid then tx.hash :: others else others, last, ?_⟩
      unfold executeAllCore
      rw [Action.fromResult_bind_ok hdecode, Fallible.bind_ok hexecute, Fallible.bind_ok hrest]
      rfl

/-- What is known of a loop that came to an end, from its first transaction on. -/
theorem executeAllCore_cons {header : BlockHeader} {coreTx : UniqysKit.Transaction}
    {handling : Handling} {rest : List (UniqysKit.Transaction × Handling)}
    {controller controller' : Controller} {validTxHashes : List Hash}
    (h : executeAllCore c header ((coreTx, handling) :: rest) controller =
      .ok validTxHashes controller') :
    ∃ tx valid next others, CoreTransaction.decode c coreTx = .ok tx ∧
      executeTransaction c header tx handling controller = .ok valid next ∧
      executeAllCore c header rest next = .ok others controller' := by
  unfold executeAllCore at h
  cases hdecode : CoreTransaction.decode c coreTx with
  | error e =>
      rw [Action.fromResult_bind_error hdecode] at h
      cases h
  | ok tx =>
      rw [Action.fromResult_bind_ok hdecode] at h
      -- a loop that ends has seen no error, neither of this transaction nor of the rest
      rcases Fallible.bind_cases (executeTransaction c header tx handling) _ controller with
        ⟨valid, next, hexecute, hbind⟩ | ⟨e, next, -, hbind⟩
      · rw [hbind] at h
        rcases Fallible.bind_cases (executeAllCore c header rest) _ next with
          ⟨others, last, hrest, hbind'⟩ | ⟨e, last, -, hbind'⟩
        · rw [hbind'] at h
          cases h
          exact ⟨tx, valid, next, others, rfl, hexecute, hrest⟩
        · rw [hbind'] at h
          cases h
      · rw [hbind] at h
        cases h

section

variable {header : BlockHeader} {coreTxs : List (UniqysKit.Transaction × Handling)}
  {controller controller' : Controller} {validTxHashes : List Hash}

/-- A transaction that cannot be decoded ends the loop with what `decode` throws. -/
theorem executable_of_executeAllCore
    (h : executeAllCore c header coreTxs controller = .ok validTxHashes controller') :
    ∀ entry ∈ coreTxs, Executable c entry.1 := by
  induction coreTxs generalizing controller validTxHashes with
  | nil => simp
  | cons entry rest ih =>
      rcases executeAllCore_cons h with ⟨tx, valid, next, others, hdecode, -, hrest⟩
      intro entry hmem
      rcases List.mem_cons.mp hmem with rfl | hmem
      · exact ⟨tx, hdecode⟩
      · exact ih hrest entry hmem

theorem executeAllCore_settled
    (h : executeAllCore c header coreTxs controller = .ok validTxHashes controller') :
    controller'.state.metaState.settled = (controller.state.metaState.withEventNonce
      (eventNonceAfter c coreTxs controller.state.metaState.eventNonce)).settled := by
  induction coreTxs generalizing controller validTxHashes with
  | nil =>
      cases h
      rfl
  | cons entry rest ih =>
      rcases entry with ⟨coreTx, handling⟩
      rcases executeAllCore_cons h with ⟨tx, valid, next, others, hdecode, hexecute, hrest⟩
      have hsettled := executeTransaction_settled hexecute
      have hnonce : next.state.metaState.eventNonce =
          nextEventNonce controller.state.metaState.eventNonce tx := by
        simpa using congrArg MetaState.eventNonce hsettled
      rw [ih hrest, hnonce, MetaState.settled_withEventNonce _ hsettled, eventNonceAfter_cons hdecode]
      rfl

end

end Controller

/-- What `newHeight` makes of the meta data. -/
def MetaState.raised (metaState : MetaState) (root : Hash) (blockTimestamp : Nat)
    (validTxHashes : List Hash) (eventExists : Bool) (eventTxRoot : Hash) : MetaState :=
  { metaState with
    height := metaState.height + 1
    appRoot := Function.update metaState.appRoot (metaState.height + 1) (some root)
    validTransactionHashes :=
      Function.update metaState.validTransactionHashes (metaState.height + 1) validTxHashes
    latestEventTimestamp :=
      if eventExists then metaState.latestBlockTimestamp else metaState.latestEventTimestamp
    latestBlockTimestamp := blockTimestamp
    eventTransactionRoot := some eventTxRoot }

theorem State.newHeight_eq (blockTimestamp : Nat) (validTxHashes : List Hash) (eventExists : Bool)
    (eventTxRoot : Hash) (state : State) :
    newHeight blockTimestamp validTxHashes eventExists eventTxRoot state =
      if state.metaState.height + 1 < 2 ^ 48 then
        .ok () { state with
          metaState := state.metaState.raised state.top.rootHash blockTimestamp validTxHashes
            eventExists eventTxRoot }
      else .error ⟨"The number is out of 48bit range"⟩ state := by
  unfold newHeight
  rw [Fallible.get_bind]
  by_cases hlt : state.metaState.height + 1 < 2 ^ 48
  · rw [Action.fromResult_bind_ok (UInt64.serialize_of_lt hlt), if_pos hlt]
    rfl
  · rw [Action.fromResult_bind_error (UInt64.serialize_of_not_lt hlt), if_neg hlt]

namespace Controller

open State

section

variable {eventProvider : Option EventProvider} {header : BlockHeader} {validTxHashes : List Hash}
  {eventExists : Bool} {controller : Controller}

/-- The provider is asked with what the transactions of a block may change only by the event nonce. -/
theorem eventTransactions_settled (metaState : MetaState) (timestamp : Nat) :
    eventTransactions eventProvider metaState.settled timestamp =
      eventTransactions eventProvider metaState timestamp := by
  cases eventProvider with
  | none => rfl
  | some getTransactions => rfl

variable (c header validTxHashes eventExists controller) in
/-- The controller after the last part of a block. -/
def updated (eventTxs : List UniqysKit.Transaction) : Controller :=
  let state := controller.state
  let eventTxRoot := MerkleTree.root c (eventTxs.map (UniqysKit.Transaction.hash c))
  { controller with
    state := { state with
      metaState := state.metaState.raised state.top.rootHash header.timestamp validTxHashes
        eventExists eventTxRoot } }

theorem updateStateInfo_eq :
    updateStateInfo c eventProvider header validTxHashes eventExists controller =
      match eventTransactions eventProvider controller.state.metaState header.timestamp with
      | .error e => .error e controller
      | .ok eventTxs =>
          if controller.state.metaState.height + 1 < 2 ^ 48 then
            .ok () (updated c header validTxHashes eventExists controller eventTxs)
          else .error ⟨"The number is out of 48bit range"⟩ controller := by
  rw [updateStateInfo]
  cases eventTransactions eventProvider controller.state.metaState header.timestamp with
  | error e => rfl
  | ok eventTxs =>
      by_cases hlt : controller.state.metaState.height + 1 < 2 ^ 48
      · simp only [newHeight_eq, if_pos hlt]
        rfl
      · simp only [newHeight_eq, if_neg hlt]

theorem updateStateInfo_of_lt {eventTxs : List UniqysKit.Transaction}
    (hevents : eventTransactions eventProvider controller.state.metaState header.timestamp =
      .ok eventTxs) (hlt : controller.state.metaState.height + 1 < 2 ^ 48) :
    updateStateInfo c eventProvider header validTxHashes eventExists controller =
      .ok () (updated c header validTxHashes eventExists controller eventTxs) := by
  rw [updateStateInfo_eq, hevents]
  exact if_pos hlt

/-- Either there is a next height, with the events of the provider, or nothing changes. -/
theorem updateStateInfo_cases
    (header : BlockHeader) (validTxHashes : List Hash) (eventExists : Bool)
    (controller : Controller) :
    (∃ eventTxs,
      eventTransactions eventProvider controller.state.metaState header.timestamp = .ok eventTxs ∧
      controller.state.metaState.height + 1 < 2 ^ 48 ∧
      updateStateInfo c eventProvider header validTxHashes eventExists controller =
        .ok () (updated c header validTxHashes eventExists controller eventTxs)) ∨
    ∃ e, updateStateInfo c eventProvider header validTxHashes eventExists controller =
      .error e controller := by
  have heq := @updateStateInfo_eq c eventProvider header validTxHashes eventExists controller
  cases hevents : eventTransactions eventProvider controller.state.metaState header.timestamp with
  | error e =>
      rw [hevents] at heq
      exact .inr ⟨e, heq⟩
  | ok eventTxs =>
      by_cases hlt : controller.state.metaState.height + 1 < 2 ^ 48
      · exact .inl ⟨eventTxs, rfl, hlt, updateStateInfo_of_lt hevents hlt⟩
      · rw [hevents] at heq
        exact .inr ⟨_, heq.trans (if_neg hlt)⟩

/-- A block is executed if its transactions come to an end, the provider gives the next events and
there is a next height. -/
theorem executeCoreTransactions_iff {coreTxs : List (UniqysKit.Transaction × Handling)}
    {appState : AppState} {controller' : Controller} :
    executeCoreTransactions c eventProvider header coreTxs controller = .ok appState controller' ↔
      ∃ validTxHashes next eventTxs,
        executeAllCore c header coreTxs controller = .ok validTxHashes next ∧
        eventTransactions eventProvider next.state.metaState header.timestamp = .ok eventTxs ∧
        next.state.metaState.height + 1 < 2 ^ 48 ∧
        controller' = updated c header validTxHashes
          (coreTxs.any fun (coreTx, _) => coreTx.type = TransactionType.event.toNat) next eventTxs ∧
        appState = getAppState c controller'.state := by
  unfold executeCoreTransactions
  constructor
  · intro h
    rcases Fallible.bind_cases (executeAllCore c header coreTxs) _ controller with
      ⟨validTxHashes, next, hloop, hbind⟩ | ⟨e, next, -, hbind⟩
    · rw [hbind] at h
      rcases updateStateInfo_cases header validTxHashes _ next with
        ⟨eventTxs, hevents, hlt, hupdate⟩ | ⟨e, hupdate⟩
      · rw [Fallible.bind_ok hupdate] at h
        cases h
        exact ⟨validTxHashes, next, eventTxs, hloop, hevents, hlt, rfl, rfl⟩
      · rw [Fallible.bind_error hupdate] at h
        cases h
    · rw [hbind] at h
      cases h
  · rintro ⟨validTxHashes, next, eventTxs, hloop, hevents, hlt, rfl, rfl⟩
    rw [Fallible.bind_ok hloop, Fallible.bind_ok (updateStateInfo_of_lt hevents hlt)]
    rfl

end

/-- What a validated transaction is known to be: its data are those of a signed transaction. -/
theorem validateTransaction_decodes {options : ControllerOptions} {coreTx : UniqysKit.Transaction}
    {state : State} (h : validateTransaction c options coreTx state = true) :
    ∃ read, SignedTransaction.deserialize c coreTx.data = .ok read := by
  cases hread : SignedTransaction.deserialize c coreTx.data with
  | ok read => exact ⟨read, rfl⟩
  | error e =>
      unfold validateTransaction checkTransaction at h
      rw [Action.fromResult_bind_error hread] at h
      cases h

/-- A block of validated transactions is executed if and only if each of them is normal, or is an
event transaction whose data can be decoded as one, the event provider does not fail when it is asked
for the events after the block, and there is a next height. -/
theorem executes_iff (c : Crypto) (options : ControllerOptions) (eventProvider : Option EventProvider)
    (header : BlockHeader) (coreTxs : List (UniqysKit.Transaction × Handling))
    (controller : Controller) (hready : controller.state.top.isReady = true)
    (hvalidated : ∀ entry ∈ coreTxs, ∃ state, validateTransaction c options entry.1 state = true) :
    (∃ appState controller', executeCoreTransactions c eventProvider header coreTxs controller =
      .ok appState controller') ↔
      (∀ entry ∈ coreTxs, entry.1.type = TransactionType.normal.toNat ∨
        (entry.1.type = TransactionType.event.toNat ∧
          ∃ read, Transaction.deserialize c entry.1.data = .ok read)) ∧
      (∃ eventTxs, eventTransactions eventProvider
        (controller.state.metaState.withEventNonce
          (eventNonceAfter c coreTxs controller.state.metaState.eventNonce)) header.timestamp =
            .ok eventTxs) ∧
      controller.state.metaState.height + 1 < 2 ^ 48 := by
  -- a transaction that was validated decodes, if it is a normal one
  have hexecutable : (∀ entry ∈ coreTxs, Executable c entry.1) ↔
      ∀ entry ∈ coreTxs, entry.1.type = TransactionType.normal.toNat ∨
        (entry.1.type = TransactionType.event.toNat ∧
          ∃ read, Transaction.deserialize c entry.1.data = .ok read) := by
    refine forall₂_congr ?_
    intro entry hmem
    rcases hvalidated entry hmem with ⟨state, hvalid⟩
    rw [executable_iff, and_iff_left (validateTransaction_decodes hvalid)]
  -- the loop leaves the height alone, and of what the provider is asked with it changes the nonce
  have hsettled : ∀ {validTxHashes next},
      executeAllCore c header coreTxs controller = .ok validTxHashes next →
        next.state.metaState.height = controller.state.metaState.height ∧
        eventTransactions eventProvider next.state.metaState header.timestamp =
          eventTransactions eventProvider (controller.state.metaState.withEventNonce
            (eventNonceAfter c coreTxs controller.state.metaState.eventNonce)) header.timestamp := by
    intro validTxHashes next hloop
    have hsame := executeAllCore_settled hloop
    refine ⟨by simpa using congrArg MetaState.height hsame, ?_⟩
    rw [← eventTransactions_settled, hsame, eventTransactions_settled]
  rw [← hexecutable]
  constructor
  · rintro ⟨appState, controller', h⟩
    rcases executeCoreTransactions_iff.mp h with
      ⟨validTxHashes, next, eventTxs, hloop, hevents, hlt, -⟩
    rcases hsettled hloop with ⟨hheight, hsame⟩
    rw [hheight] at hlt
    rw [hsame] at hevents
    exact ⟨executable_of_executeAllCore hloop, ⟨eventTxs, hevents⟩, hlt⟩
  · rintro ⟨hall, ⟨eventTxs, hevents⟩, hlt⟩
    rcases executeAllCore_ends header coreTxs hready hall with ⟨validTxHashes, next, hloop⟩
    rcases hsettled hloop with ⟨hheight, hsame⟩
    rw [← hheight] at hlt
    rw [← hsame] at hevents
    exact ⟨_, _, executeCoreTransactions_iff.mpr
      ⟨validTxHashes, next, eventTxs, hloop, hevents, hlt, rfl, rfl⟩⟩

/-! ### A signed transaction under two type bytes -/

/-- The data of a signed transaction for a `GET` of `/`. -/
def signedData : Bytes :=
  let tx : Transaction := ⟨1, ⟨"GET", "/", [], []⟩⟩
  match SignedTransaction.sign .transparent (Consensus.sampleKey 1) tx with
  | .ok signed => (SignedTransaction.serialize signed).toOption.getD []
  | .error _ => []

theorem signedData_lt : signedData.length < 2 ^ 32 := by decide +kernel

/-- The transaction as one of type `Normal`. -/
def normalTransaction : UniqysKit.Transaction := ⟨0, signedData, Transaction.zero_lt, signedData_lt⟩

/-- The same data under a type byte that stands for no type. -/
def untypedTransaction : UniqysKit.Transaction := ⟨2, signedData, by decide, signedData_lt⟩

theorem executes_iff_normal :
    ∃ appState controller', executeCoreTransactions .transparent none blankHeader
      [(normalTransaction, brokenConnection)] freshController = .ok appState controller' := by
  refine (executes_iff .transparent {} none blankHeader _ freshController (by decide +kernel) ?_).mpr
    ⟨?_, ⟨[], rfl⟩, by decide +kernel⟩
  · intro entry hmem
    rw [List.mem_singleton.mp hmem]
    exact ⟨freshState, by decide +kernel⟩
  · intro entry hmem
    rw [List.mem_singleton.mp hmem]
    exact .inl rfl

/-- A validated transaction whose execution throws. -/
theorem execution_throws :
    validateTransaction .transparent {} untypedTransaction freshState = true ∧
      ∃ e controller', executeCoreTransactions .transparent none blankHeader
        [(untypedTransaction, brokenConnection)] freshController = .error e controller' :=
  ⟨by decide +kernel, _, _, rfl⟩

end Controller

end Settled

end EasyFramework
end UniqysKit
