import UniqysKit.EasyFramework.Accesses
import UniqysKit.EasyFramework.Events
import UniqysKit.MerklePatriciaTrie.Updates

/-!
# The writes of a block

The store of the framework holds the trie, the meta data and the results.  Every write is one entry;
here they are listed, in the order in which executing a block makes them.  `foldl_blockWrites` says
that the list is complete: after all writes the store is the one of the controller.
-/

namespace UniqysKit
namespace EasyFramework

open Library State

/-! ## The store -/

/-- What is in the store, where the root in memory is not. -/
structure Disk where
  metaState : MetaState
  result : Bytes → Option Bytes
  trie : TrieStore

def State.disk (state : State) : Disk := ⟨state.metaState, state.result, state.top.store⟩

inductive Write
  | node (node : Node)
  | root (hash : Hash)
  | nextValidatorSet (nextValidatorSet : ValidatorSet)
  | eventNonce (nonce : Nat)
  | result (tx : Hash) (bytes : Bytes)
  | height (height : Nat)
  | appRoot (height : Nat) (root : Hash)
  | validTransactionHashes (height : Nat) (hashes : List Hash)
  | latestEventTimestamp (timestamp : Nat)
  | latestBlockTimestamp (timestamp : Nat)
  | eventTransactionRoot (root : Hash)

section Definitions

variable (c : Crypto)

def Write.apply (disk : Disk) : Write → Disk
  | .node n => { disk with trie := disk.trie.putAll c [n] }
  | .root hash => { disk with trie := disk.trie.write TrieStore.rootKey hash.serialize }
  | .nextValidatorSet set =>
      { disk with metaState := { disk.metaState with nextValidatorSet := set } }
  | .eventNonce nonce => { disk with metaState := { disk.metaState with eventNonce := nonce } }
  | .result tx bytes => { disk with result := Function.update disk.result tx.buffer (some bytes) }
  | .height number => { disk with metaState := { disk.metaState with height := number } }
  | .appRoot number hash =>
      { disk with
        metaState := { disk.metaState with
          appRoot := Function.update disk.metaState.appRoot number (some hash) } }
  | .validTransactionHashes number hashes =>
      { disk with
        metaState := { disk.metaState with
          validTransactionHashes :=
            Function.update disk.metaState.validTransactionHashes number hashes } }
  | .latestEventTimestamp timestamp =>
      { disk with metaState := { disk.metaState with latestEventTimestamp := timestamp } }
  | .latestBlockTimestamp timestamp =>
      { disk with metaState := { disk.metaState with latestBlockTimestamp := timestamp } }
  | .eventTransactionRoot hash =>
      { disk with metaState := { disk.metaState with eventTransactionRoot := some hash } }

/-- The last value that one of the writes has. -/
def lastWritten {α : Type} (value : Write → Option α) (writes : List Write) : Option α :=
  (writes.filterMap value).getLast?

def Write.rootHash : Write → Option Hash
  | .root hash => some hash
  | _ => none

/-- The writes that a transaction can make. -/
def Write.ofTransaction : Write → Bool
  | .node _ | .root _ | .nextValidatorSet _ | .eventNonce _ | .result _ _ => true
  | _ => false

/-- What is in the store, and the root that the trie has in memory. -/
structure Held where
  disk : Disk
  rootHash : Hash

def State.held (state : State) : Held := ⟨state.disk, state.top.rootHash⟩

/-- The root is written before it is taken. -/
def Write.take (held : Held) (write : Write) : Held :=
  ⟨write.apply c held.disk, write.rootHash.getD held.rootHash⟩

/-! ## The writes of each part -/

/-- The writes of an operation on the trie: the nodes that were saved, and the root unless it throws. -/
def trieWrites (trie : MerklePatriciaTrie) : EStateM.Result Error MerklePatriciaTrie Unit → List Write
  | .ok _ trie' => (trie'.saved.drop trie.saved.length).map Write.node ++ [.root trie'.rootHash]
  | .error _ trie' => (trie'.saved.drop trie.saved.length).map Write.node

def Access.writes : Access → MerklePatriciaTrie → List Write
  | get _, _ => []
  | apply op, trie => trieWrites trie (op.apply c trie)

def Code.writes {α : Type} (code : Code α) (trie : MerklePatriciaTrie) : List Write :=
  code.log (Access.act c) (Access.writes c) trie

/-- The writes of a call: `PUT /validators` writes to the meta data, the others to the trie. -/
def Call.writes (memcached : EasyMemcached) (call : Call) (state : State) : List Write :=
  (call.code memcached).writes c state.top ++ (call.validators.map Write.nextValidatorSet).toList

/-- The writes of some calls, one after another. -/
def serveWrites (memcached : EasyMemcached) : List Call → State → List Write
  | [], _ => []
  | call :: calls, state =>
      call.writes c memcached state ++ serveWrites memcached calls (call.serve c memcached state)

namespace Controller

def prepareWrites (tx : CoreTransaction) (state : State) : List Write :=
  match tx with
  | .normal _ sender nonce => (prepareCode sender nonce).writes c state.top
  | .event _ nonce =>
      if nonce = state.metaState.eventNonce + 1 ∧ nonce < 2 ^ 48 then [.eventNonce nonce] else []

def finishWrites (header : BlockHeader) (res : HttpResponse) : CoreTransaction → List Write
  | .normal hash _ _ =>
      match TransactionResult.serialize ⟨header.height, res⟩ with
      | .ok bytes => [.result hash bytes]
      | .error _ => []
  | .event _ _ => []

/-- The writes of a transaction; the catch branch writes nothing. -/
def actionWrites (header : BlockHeader) (memcached : EasyMemcached) (handling : Handling)
    (tx : CoreTransaction) (state : State) : List Write :=
  prepareWrites c tx state ++
    match prepare c tx state with
    | .error _ _ => []
    | .ok _ state' =>
        serveWrites c { memcached with mode := .readWrite } handling.calls state' ++
          match handling.response with
          | .ok res => finishWrites header res tx
          | .error _ => []

/-- The writes of the loop over the transactions of a block. -/
def loopWrites (header : BlockHeader) :
    List (UniqysKit.Transaction × Handling) → Controller → List Write
  | [], _ => []
  | (coreTx, handling) :: rest, controller =>
      match CoreTransaction.decode c coreTx with
      | .error _ => []
      | .ok tx =>
          actionWrites c header controller.memcachedImpl handling tx controller.state ++
            loopWrites header rest
              (Fallible.final (executeTransaction c header tx handling controller))

/-- The writes of `newHeight`. -/
def newHeightWrites (blockTimestamp : Nat) (validTxHashes : List Hash) (eventExists : Bool)
    (eventTxRoot : Hash) (state : State) : List Write :=
  let height := state.metaState.height + 1
  [.height height, .appRoot height state.top.rootHash,
    .validTransactionHashes height validTxHashes] ++
    (if eventExists then [.latestEventTimestamp state.metaState.latestBlockTimestamp] else []) ++
    [.latestBlockTimestamp blockTimestamp, .eventTransactionRoot eventTxRoot]

/-- The writes of `executeTransactions`. -/
def blockWrites (eventProvider : Option EventProvider) (execution : Execution)
    (controller : Controller) : List Write :=
  loopWrites c execution.header execution.coreTxs controller ++
    match executeAllCore c execution.header execution.coreTxs controller with
    | .error _ _ => []
    | .ok validTxHashes next =>
        match eventTransactions eventProvider next.state.metaState execution.header.timestamp with
        | .error _ => []
        | .ok eventTxs =>
            newHeightWrites execution.header.timestamp validTxHashes execution.eventExists
              (MerkleTree.root c (eventTxs.map (UniqysKit.Transaction.hash c))) next.state

end Controller

end Definitions

/-! ## The list is complete -/

section Complete

variable {c : Crypto}

theorem foldl_take (writes : List Write) (held : Held) :
    writes.foldl (Write.take c) held = ⟨writes.foldl (Write.apply c) held.disk,
      (lastWritten Write.rootHash writes).getD held.rootHash⟩ := by
  induction writes generalizing held with
  | nil => rfl
  | cons write writes ih =>
      rw [List.foldl_cons, ih, List.foldl_cons]
      unfold Write.take lastWritten
      cases hroot : write.rootHash with
      | none => rw [List.filterMap_cons_none hroot, Option.getD_none]
      | some hash =>
          rw [List.filterMap_cons_some hroot, List.getLast?_cons, Option.getD_some, Option.getD_some]

/-- The record of the root is what was written of it last. -/
theorem rootKey_foldl (writes : List Write) (disk : Disk) :
    (writes.foldl (Write.apply c) disk).trie.store TrieStore.rootKey =
      match lastWritten Write.rootHash writes with
      | some hash => some hash.serialize
      | none => disk.trie.store TrieStore.rootKey := by
  induction writes using List.reverseRecOn with
  | nil => rfl
  | append_singleton writes write ih =>
      have hlast : lastWritten Write.rootHash (writes ++ [write]) =
          write.rootHash.or (lastWritten Write.rootHash writes) := by
        simp only [lastWritten, List.filterMap_append, List.getLast?_append]
        cases hroot : write.rootHash with
        | none => simp [hroot]
        | some hash => simp [hroot]
      rw [List.foldl_append, hlast]
      cases write with
      | root hash =>
          simp only [List.foldl_cons, List.foldl_nil, Write.apply, TrieStore.write,
            Function.update_self]
          rfl
      | node node =>
          simp only [List.foldl_cons, List.foldl_nil, Write.apply, Write.rootHash,
            TrieStore.rootKey_putAll, ih]
          rfl
      | _ => exact ih

theorem foldl_nodes (held : Held) (nodes : List Node) :
    (nodes.map Write.node).foldl (Write.take c) held =
      { held with disk := { held.disk with trie := held.disk.trie.putAll c nodes } } := by
  induction nodes generalizing held with
  | nil => rfl
  | cons node nodes ih =>
      rw [List.map_cons, List.foldl_cons, ih]
      simp only [Write.take, Write.apply, Write.rootHash, Option.getD_none,
        ← TrieStore.putAll_append, List.singleton_append]

/-- What is held, with this trie. -/
def Disk.withTrie (disk : Disk) (trie : MerklePatriciaTrie) : Held :=
  ⟨{ disk with trie := trie.store }, trie.rootHash⟩

/-- The writes of an operation make its change of the trie. -/
theorem foldl_trieWrites {trie : MerklePatriciaTrie}
    {result : EStateM.Result Error MerklePatriciaTrie Unit}
    (h : MerklePatriciaTrie.Updated c trie result) (disk : Disk) :
    (trieWrites trie result).foldl (Write.take c) (disk.withTrie trie) =
      disk.withTrie (Fallible.final result) := by
  cases h with
  | root nodes rootHash =>
      have hnew : ((trie.store.putAll c nodes).write TrieStore.rootKey rootHash.serialize).saved.drop
          trie.store.saved.length = nodes := by
        show (trie.store.putAll c nodes).saved.drop trie.store.saved.length = nodes
        rw [TrieStore.saved_putAll, List.drop_left]
      simp only [trieWrites, MerklePatriciaTrie.saved, hnew, List.foldl_append, foldl_nodes]
      rfl
  | nodes nodes e =>
      have hnew : (trie.store.putAll c nodes).saved.drop trie.store.saved.length = nodes := by
        rw [TrieStore.saved_putAll, List.drop_left]
      simp only [trieWrites, MerklePatriciaTrie.saved, hnew, foldl_nodes]
      rfl

/-- The writes of code make its change of the trie. -/
theorem foldl_codeWrites {α : Type} (code : Code α) (trie : MerklePatriciaTrie) (disk : Disk) :
    (code.writes c trie).foldl (Write.take c) (disk.withTrie trie) =
      disk.withTrie (Fallible.final (code.onTrie c trie)) := by
  have haccess : ∀ access trie, (Access.writes c access trie).foldl (Write.take c) (disk.withTrie trie) =
      disk.withTrie (Fallible.final (Access.act c access trie)) := ?_
  · exact Program.foldl_log haccess code trie
  intro access trie
  cases access with
  | get key =>
      have hsame : Fallible.final (MerklePatriciaTrie.get key trie) = trie :=
        @MerklePatriciaTrie.respects_get (.constant id) key trie
      exact congrArg disk.withTrie hsame.symm
  | apply op => exact foldl_trieWrites (MerklePatriciaTrie.updated_apply op) disk

/-! ### Calls -/

/-- What a call does, with the trie and otherwise. -/
theorem Call.serve_eq (memcached : EasyMemcached) (call : Call) (state : State) :
    call.serve c memcached state =
      { state with
        top := Fallible.final ((call.code memcached).onTrie c state.top)
        metaState.nextValidatorSet :=
          call.validators.getD state.metaState.nextValidatorSet } := by
  have hmeta := MetaState.eq_of_settled ((apart_run (c := c) memcached call).settles state)
  have hserve : (Fallible.final (call.run c memcached state)) = call.serve c memcached state := rfl
  rw [hserve, serve_validators] at hmeta
  rw [← top_serve, ← hmeta, ← result_serve (c := c) memcached call state]

theorem foldl_callWrites (memcached : EasyMemcached) (call : Call) (state : State) :
    (call.writes c memcached state).foldl (Write.take c) state.held =
      (call.serve c memcached state).held := by
  have hheld : state.held = state.disk.withTrie state.top := rfl
  rw [Call.writes, List.foldl_append, Call.serve_eq, hheld, foldl_codeWrites]
  cases call.validators with
  | none => rfl
  | some set => rfl

theorem foldl_serveWrites (memcached : EasyMemcached) (calls : List Call) (state : State) :
    (serveWrites c memcached calls state).foldl (Write.take c) state.held =
      (Call.serveAll c memcached calls state).held := by
  induction calls generalizing state with
  | nil => rfl
  | cons call calls ih =>
      rw [serveWrites, List.foldl_append, foldl_callWrites, ih]
      rfl

/-! ### Transactions -/

namespace Controller

section

variable {header : BlockHeader}

theorem foldl_prepareWrites (tx : CoreTransaction) (state : State) :
    (prepareWrites c tx state).foldl (Write.take c) state.held =
      (Fallible.final (prepare c tx state)).held := by
  cases tx with
  | normal hash sender nonce =>
      have hmatches := ((matches_prepare c hash sender nonce _).same state state.top ⟨rfl, rfl⟩
        trivial).2
      have hmeta := MetaState.eq_of_settled ((apart_prepare (c := c) hash sender nonce).settles state)
      have hvalidators :
          (Fallible.final (prepare c (.normal hash sender nonce) state)).metaState.nextValidatorSet =
            state.metaState.nextValidatorSet :=
        (quiet_prepare (c := c) (.normal hash sender nonce)).validators state
      rw [hvalidators] at hmeta
      have hheld : state.held = state.disk.withTrie state.top := rfl
      rw [prepareWrites, hheld, foldl_codeWrites, ← hmatches.1]
      simp only [State.held, State.disk, Disk.withTrie, hmatches.2, hmeta]
  | event hash nonce =>
      rw [prepareWrites, prepare_event_eq]
      by_cases hnonce : nonce = state.metaState.eventNonce + 1
      · subst hnonce
        rw [if_pos rfl, incrementEventNonce_eq]
        by_cases hlt : state.metaState.eventNonce + 1 < 2 ^ 48
        · rw [if_pos hlt]
          simp only [true_and, if_pos hlt]
          rfl
        · rw [if_neg hlt]
          simp only [true_and, if_neg hlt]
          rfl
      · rw [if_neg hnonce]
        simp only [hnonce, false_and, if_false]
        rfl

theorem final_checkStatus (res : HttpResponse) (state : State) :
    Fallible.final (checkStatus res state) = state := by
  unfold checkStatus
  split
  · rfl
  · rfl

theorem foldl_finishWrites (res : HttpResponse) (tx : CoreTransaction) (state : State) :
    (finishWrites header res tx).foldl (Write.take c) state.held =
      (Fallible.final (finish header res tx state)).held := by
  cases tx with
  | normal hash sender nonce =>
      simp only [finishWrites, finish, setResult]
      cases hbytes : TransactionResult.serialize ⟨header.height, res⟩ with
      | ok bytes =>
          show _ = (Fallible.final (checkStatus res _)).held
          rw [final_checkStatus]
          rfl
      | error e => rfl
  | event hash nonce =>
      show _ = (Fallible.final (checkStatus res state)).held
      rw [final_checkStatus]
      rfl

variable (header) in
theorem foldl_actionWrites (memcached : EasyMemcached) (handling : Handling) (tx : CoreTransaction)
    (state : State) :
    (actionWrites c header memcached handling tx state).foldl (Write.take c) state.held =
      (Fallible.final (action c header memcached handling tx state)).held := by
  have hprepared := foldl_prepareWrites (c := c) tx state
  rw [actionWrites, List.foldl_append, hprepared, action_eq]
  cases hprepare : prepare c tx state with
  | error e state' =>
      rw [Fallible.bind_error hprepare]
      rfl
  | ok _ state' =>
      rw [Fallible.bind_ok hprepare]
      simp only [Fallible.final_ok, List.foldl_append]
      rw [foldl_serveWrites]
      unfold handle
      cases handling.response with
      | error e => rfl
      | ok res => exact foldl_finishWrites res tx _

theorem foldl_transactionWrites {tx : CoreTransaction} {handling : Handling} {valid : Bool}
    {controller controller' : Controller}
    (h : executeTransaction c header tx handling controller = .ok valid controller') :
    (actionWrites c header controller.memcachedImpl handling tx controller.state).foldl
      (Write.apply c) controller.state.disk = controller'.state.disk := by
  have haction := foldl_actionWrites (c := c) header controller.memcachedImpl handling tx
    controller.state
  rw [foldl_take] at haction
  refine (congrArg Held.disk haction).trans ?_
  cases valid with
  | true => rw [executeTransaction_true h, Fallible.final_ok, State.held]
  | false =>
      -- the root is set back in memory only
      rcases executeTransaction_false h with ⟨e, mid, haction, -, hstate⟩
      rw [haction, hstate]
      rfl

/-- Setting an account throws before the one access to the trie, or is that access. -/
theorem setAccountCode_cases (address : Address) (account : Account) :
    (∃ e, InnerApi.setAccountCode address account = .done (.error e)) ∨
      ∃ content, InnerApi.setAccountCode address account = Code.apply (.set content) := by
  unfold InnerApi.setAccountCode
  cases account.serialize with
  | error e => exact .inl ⟨e, rfl⟩
  | ok value =>
      cases hcontent : State.content address.buffer value with
      | error e =>
          refine .inl ⟨e, ?_⟩
          show (Program.done (State.content address.buffer value) >>= _) = _
          rw [hcontent]
          rfl
      | ok content =>
          refine .inr ⟨content, ?_⟩
          show (Program.done (State.content address.buffer value) >>= _) = _
          rw [hcontent]
          rfl

/-- An operation that throws leaves nodes at most. -/
theorem lastWritten_trieWrites_error (trie trie' : MerklePatriciaTrie) (e : Error) :
    lastWritten Write.rootHash (trieWrites trie (.error e trie')) = none := by
  have hnodes : ∀ nodes : List Node, (nodes.map Write.node).filterMap Write.rootHash = [] := by
    intro nodes
    induction nodes with
    | nil => rfl
    | cons node nodes ih => exact ih
  rw [trieWrites, lastWritten, hnodes, List.getLast?_nil]

theorem onTrie_apply (op : Operation) (trie : MerklePatriciaTrie) :
    (Code.apply op).onTrie c trie = op.apply c trie :=
  congrFun (@Program.run_perform _ _ _ _ (Access.act c) (Access.apply op)) trie

theorem writes_apply (op : Operation) (trie : MerklePatriciaTrie) :
    (Code.apply op).writes c trie = trieWrites trie (op.apply c trie) :=
  @Program.log_perform _ _ _ _ (Access.act c) _ (Access.writes c) (Access.apply op) trie

theorem writes_getAccount (address : Address) (trie : MerklePatriciaTrie) :
    (InnerApi.getAccountCode address).writes c trie = [] := by
  have hget : (Code.get address.buffer).writes c trie = [] :=
    @Program.log_perform _ _ _ _ (Access.act c) _ (Access.writes c) (Access.get address.buffer) trie
  refine (Program.log_bind _ _ trie).trans ?_
  rw [← Code.writes, hget]
  split
  · rfl
  · rfl

/-- An account that could not be set has left nodes at most. -/
theorem lastWritten_setAccount {address : Address} {account : Account}
    {trie trie' : MerklePatriciaTrie} {e : Error}
    (h : (InnerApi.setAccountCode address account).onTrie c trie = .error e trie') :
    lastWritten Write.rootHash ((InnerApi.setAccountCode address account).writes c trie) = none := by
  rcases setAccountCode_cases address account with ⟨e', hcode⟩ | ⟨content, hcode⟩
  · rw [hcode]
    rfl
  · rw [hcode, onTrie_apply] at h
    rw [hcode, writes_apply, h, lastWritten_trieWrites_error]

/-- A transaction that did not come to its request has not written the root. -/
theorem lastWritten_prepareWrites {tx : CoreTransaction} {state state' : State} {e : Error}
    (h : prepare c tx state = .error e state') :
    lastWritten Write.rootHash (prepareWrites c tx state) = none := by
  cases tx with
  | normal hash sender nonce =>
      have hout := ((matches_prepare c hash sender nonce _).same state state.top ⟨rfl, rfl⟩ trivial).1
      rw [h] at hout
      have hwrites : (prepareCode sender nonce).writes c state.top = _ :=
        Program.log_bind (InnerApi.getAccountCode sender) _ state.top
      rw [prepareWrites, hwrites, ← Code.writes, writes_getAccount, List.nil_append]
      unfold prepareCode Code.onTrie at hout
      rw [Program.run_bind] at hout
      cases hget : (InnerApi.getAccountCode sender).run (Access.act c) state.top with
      | error e trie =>
          simp only
          rfl
      | ok account trie =>
          rw [Fallible.bind_ok hget] at hout
          simp only
          simp only at hout
          by_cases hnonce : nonce ≠ account.incrementNonce.nonce
          · rw [if_pos hnonce]
            rfl
          · rw [if_neg hnonce] at hout ⊢
            rcases Fallible.outcome_eq_cases hout with ⟨_, _, _, herror, -⟩ | ⟨e', _, trie', -, herror⟩
            · cases herror
            · exact lastWritten_setAccount herror
  | event hash nonce =>
      rw [prepareWrites]
      split
      · rfl
      · rfl

theorem foldl_loopWrites {coreTxs : List (UniqysKit.Transaction × Handling)}
    {controller controller' : Controller} {validTxHashes : List Hash}
    (h : executeAllCore c header coreTxs controller = .ok validTxHashes controller') :
    (loopWrites c header coreTxs controller).foldl (Write.apply c) controller.state.disk =
      controller'.state.disk := by
  induction coreTxs generalizing controller validTxHashes with
  | nil =>
      cases h
      rfl
  | cons entry rest ih =>
      rcases executeAllCore_cons h with ⟨tx, valid, next, others, hdecode, hexecute, hrest⟩
      rw [loopWrites, hdecode]
      simp only
      rw [List.foldl_append, foldl_transactionWrites hexecute, hexecute]
      exact ih hrest

end

theorem foldl_newHeightWrites (blockTimestamp : Nat) (validTxHashes : List Hash) (eventExists : Bool)
    (eventTxRoot : Hash) (state : State) :
    (newHeightWrites blockTimestamp validTxHashes eventExists eventTxRoot state).foldl
        (Write.apply c) state.disk =
      { state.disk with
        metaState := state.metaState.raised state.top.rootHash blockTimestamp validTxHashes
          eventExists eventTxRoot } := by
  cases eventExists with
  | true => rfl
  | false => rfl

/-- After all writes of a block the store is that of the controller. -/
theorem foldl_blockWrites {eventProvider : Option EventProvider} {execution : Execution}
    {controller controller' : Controller} {appState : AppState}
    (h : executeCoreTransactions c eventProvider execution.header execution.coreTxs controller =
      .ok appState controller') :
    (blockWrites c eventProvider execution controller).foldl (Write.apply c)
      controller.state.disk = controller'.state.disk := by
  rcases executeCoreTransactions_iff.mp h with
    ⟨validTxHashes, next, eventTxs, hloop, hevents, -, rfl, -⟩
  rw [blockWrites, List.foldl_append, foldl_loopWrites hloop, hloop]
  simp only [hevents]
  rw [foldl_newHeightWrites]
  rfl

/-! ### What a transaction does not write -/

theorem ofTransaction_trieWrites (trie : MerklePatriciaTrie)
    (result : EStateM.Result Error MerklePatriciaTrie Unit) :
    ∀ write ∈ trieWrites trie result, write.ofTransaction = true := by
  have hnodes : ∀ nodes : List Node, ∀ write ∈ nodes.map Write.node, write.ofTransaction = true := by
    intro nodes write hmem
    rcases List.mem_map.mp hmem with ⟨node, -, rfl⟩
    rfl
  intro write hmem
  cases result with
  | ok _ trie' =>
      rcases List.mem_append.mp hmem with hmem | hmem
      · exact hnodes _ write hmem
      · rw [List.mem_singleton.mp hmem]
        rfl
  | error e trie' => exact hnodes _ write hmem

theorem ofTransaction_codeWrites {α : Type} (code : Code α) (trie : MerklePatriciaTrie) :
    ∀ write ∈ code.writes c trie, write.ofTransaction = true := by
  refine Program.forall_mem_log (Access.act c) ?_ code trie
  intro access trie
  cases access with
  | get key => exact nofun
  | apply op => exact ofTransaction_trieWrites trie (op.apply c trie)

theorem ofTransaction_serveWrites (memcached : EasyMemcached) (calls : List Call) (state : State) :
    ∀ write ∈ serveWrites c memcached calls state, write.ofTransaction = true := by
  induction calls generalizing state with
  | nil => exact nofun
  | cons call calls ih =>
      intro write hmem
      rcases List.mem_append.mp hmem with hmem | hmem
      · rcases List.mem_append.mp hmem with hmem | hmem
        · exact ofTransaction_codeWrites _ _ write hmem
        · rcases List.mem_map.mp (Option.toList_map .. ▸ hmem) with ⟨set, -, rfl⟩
          rfl
      · exact ih _ write hmem

theorem ofTransaction_actionWrites {header : BlockHeader} (memcached : EasyMemcached)
    (handling : Handling) (tx : CoreTransaction) (state : State) :
    ∀ write ∈ actionWrites c header memcached handling tx state, write.ofTransaction = true := by
  have hprepare : ∀ write ∈ prepareWrites c tx state, write.ofTransaction = true := by
    cases tx with
    | normal hash sender nonce => exact ofTransaction_codeWrites _ _
    | event hash nonce =>
        intro write hmem
        rw [prepareWrites] at hmem
        split at hmem
        · rw [List.mem_singleton.mp hmem]
          rfl
        · exact (List.not_mem_nil hmem).elim
  have hfinish : ∀ res, ∀ write ∈ finishWrites header res tx, write.ofTransaction = true := by
    intro res write hmem
    cases tx with
    | normal hash sender nonce =>
        simp only [finishWrites] at hmem
        split at hmem
        · rw [List.mem_singleton.mp hmem]
          rfl
        · exact (List.not_mem_nil hmem).elim
    | event hash nonce => exact (List.not_mem_nil hmem).elim
  intro write hmem
  rcases List.mem_append.mp hmem with hmem | hmem
  · exact hprepare write hmem
  · split at hmem
    · exact (List.not_mem_nil hmem).elim
    · rcases List.mem_append.mp hmem with hmem | hmem
      · exact ofTransaction_serveWrites _ _ _ write hmem
      · split at hmem
        · exact hfinish _ write hmem
        · exact (List.not_mem_nil hmem).elim

theorem ofTransaction_loopWrites {header : BlockHeader}
    (coreTxs : List (UniqysKit.Transaction × Handling)) (controller : Controller) :
    ∀ write ∈ loopWrites c header coreTxs controller, write.ofTransaction = true := by
  induction coreTxs generalizing controller with
  | nil => exact nofun
  | cons entry rest ih =>
      intro write hmem
      rw [loopWrites] at hmem
      split at hmem
      · exact (List.not_mem_nil hmem).elim
      · rcases List.mem_append.mp hmem with hmem | hmem
        · exact ofTransaction_actionWrites _ _ _ _ write hmem
        · exact ih _ write hmem

/-- Such writes leave the data alone that belong to the height. -/
theorem foldl_ofTransaction {writes : List Write} (h : ∀ write ∈ writes, write.ofTransaction = true)
    (disk : Disk) :
    let disk' := writes.foldl (Write.apply c) disk
    disk'.metaState.height = disk.metaState.height ∧
      disk'.metaState.appRoot = disk.metaState.appRoot ∧
      disk'.metaState.latestEventTimestamp = disk.metaState.latestEventTimestamp := by
  induction writes generalizing disk with
  | nil => exact ⟨rfl, rfl, rfl⟩
  | cons write writes ih =>
      have hrest := ih (fun write hmem => h write (List.mem_cons_of_mem _ hmem)) (write.apply c disk)
      have hfirst := h write List.mem_cons_self
      cases write with
      | node | root | nextValidatorSet | eventNonce | result => exact hrest
      | _ => cases hfirst

end Controller

end Complete

end EasyFramework
end UniqysKit
