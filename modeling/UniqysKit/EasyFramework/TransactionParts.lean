import UniqysKit.EasyFramework.Soundness

/-!
# The parts of a transaction

What comes before the request to the application, the request, and what is done with the response; and
the two ways in which a transaction ends.
-/

namespace UniqysKit
namespace EasyFramework

open Library

namespace Controller

open State

variable (c : Crypto)

/-! ## The parts of a transaction -/

/-- What comes before the request to the application. -/
def prepare : CoreTransaction → Action State Unit
  | .normal _ sender nonce => do
      let next := (← getAccount sender).incrementNonce
      if nonce ≠ next.nonce then throw ⟨"non continuous nonce"⟩
      setAccount c sender next
  | .event _ nonce => do
      let nextNonce := (← get).metaState.eventNonce + 1
      if nonce ≠ nextNonce then throw ⟨"non continuous nonce"⟩
      incrementEventNonce

/-- What is done with the response. -/
def finish (header : BlockHeader) (res : HttpResponse) : CoreTransaction → Action State Unit
  | .normal hash _ _ => do
      setResult hash ⟨header.height, res⟩
      checkStatus res
  | .event _ _ => checkStatus res

theorem action_eq (header : BlockHeader) (memcached : EasyMemcached) (handling : Handling)
    (tx : CoreTransaction) : action c header memcached handling tx = (do
      prepare c tx
      let res ← handle c memcached handling
      finish header res tx) := by
  cases tx with
  | normal hash sender nonce =>
      simp only [action, prepare, finish, bind_assoc]
      refine bind_congr ?_
      intro account
      split
      · rfl
      · rfl
  | event hash nonce =>
      simp only [action, prepare, finish, bind_assoc]
      refine bind_congr ?_
      intro state
      split
      · rfl
      · rfl

variable {c}

theorem quiet_incrementEventNonce : Quiet c incrementEventNonce := by
  refine Quiet.get.bind fun state => (Quiet.fromResult _).bind fun _ => ?_
  exact quiet_modifyMeta fun _ => rfl

theorem quiet_prepare (tx : CoreTransaction) : Quiet c (prepare c tx) := by
  cases tx with
  | normal hash sender nonce =>
      refine (quiet_getAccount sender).bind ?_
      intro account
      simp only
      split
      · exact (Quiet.throw _).bind fun _ => quiet_setAccount sender _
      · exact (Quiet.pure _).bind fun _ => quiet_setAccount sender _
  | event hash nonce =>
      refine Quiet.get.bind ?_
      intro state
      simp only
      split
      · exact (Quiet.throw _).bind fun _ => quiet_incrementEventNonce
      · exact quiet_incrementEventNonce

theorem quiet_checkStatus (res : HttpResponse) : Quiet c (checkStatus res) := by
  unfold checkStatus
  split
  · exact .throw _
  · exact .pure _

theorem quiet_finish (header : BlockHeader) (res : HttpResponse) (tx : CoreTransaction) :
    Quiet c (finish header res tx) := by
  cases tx with
  | normal hash sender nonce =>
      have hset : Quiet c (setResult hash ⟨header.height, res⟩) :=
        (Quiet.fromResult _).bind fun bytes => .of_top (fun _ => rfl) fun _ => rfl
      exact hset.bind fun _ => quiet_checkStatus res
  | event hash nonce => exact quiet_checkStatus res

theorem final_handle (memcached : EasyMemcached) (handling : Handling) (state : State) :
    Fallible.final (handle c memcached handling state) =
      Call.serveAll c { memcached with mode := .readWrite } handling.calls state := by
  unfold handle
  cases handling.response with
  | ok res => rfl
  | error e => rfl

theorem stable_handle (memcached : EasyMemcached) (handling : Handling) :
    Stable c (handle c memcached handling) := by
  refine (Call.stable_serveAll _ _).bind fun _ => ?_
  cases handling.response with
  | ok res => exact (Quiet.pure res).toStable
  | error e => exact (Quiet.throw e).toStable

theorem stable_action (header : BlockHeader) (memcached : EasyMemcached) (handling : Handling)
    (tx : CoreTransaction) : Stable c (action c header memcached handling tx) := by
  rw [action_eq]
  exact (quiet_prepare tx).toStable.bind fun _ => (stable_handle memcached handling).bind fun res =>
    (quiet_finish header res tx).toStable

/-! ## The catch branch -/

theorem outcome_onTop {α : Type} (action : Action MerklePatriciaTrie α) (state : State) :
    Fallible.outcome (onTop action state) = Fallible.outcome (action state.top) := by
  unfold onTop
  cases action state.top with
  | ok a top => rfl
  | error e top => rfl

/-- An account depends on its entry only. -/
theorem outcome_getAccount (address : Address) (state : State) :
    Fallible.outcome (getAccount address state) =
      Fallible.outcome (onTop (MerklePatriciaTrie.get address.buffer) state) >>= accountOf := by
  unfold getAccount
  cases hget : onTop (MerklePatriciaTrie.get address.buffer) state with
  | ok value state' =>
      rw [Fallible.bind_ok hget]
      cases haccount : accountOf value with
      | ok account => exact haccount.symm
      | error e => exact haccount.symm
  | error e state' =>
      rw [Fallible.bind_error hget]
      rfl

/-- The state that the catch branch makes of `mid`, for a transaction that started in `state`. -/
def rolledBack (state mid : State) : State :=
  { mid with top := { mid.top with rootHash := state.top.rootHash } }

/-- What it means that the catch branch was taken and has finished. -/
theorem executeTransaction_false {header : BlockHeader} {tx : CoreTransaction} {handling : Handling}
    {controller controller' : Controller}
    (h : executeTransaction c header tx handling controller = .ok false controller') :
    ∃ e mid, action c header controller.memcachedImpl handling tx controller.state = .error e mid ∧
      mid.top.isReady = true ∧ controller'.state = rolledBack controller.state mid := by
  unfold executeTransaction at h
  simp only at h
  split at h
  · cases h
  · rename_i e mid hmid
    refine ⟨e, mid, hmid, ?_⟩
    simp only [onTop, MerklePatriciaTrie.rollback_eq] at h
    cases hready : mid.top.isReady with
    | true =>
        rw [if_pos hready] at h
        cases h
        exact ⟨rfl, rfl⟩
    | false =>
        rw [if_neg (by simp [hready])] at h
        cases h

theorem executeTransaction_true {header : BlockHeader} {tx : CoreTransaction} {handling : Handling}
    {controller controller' : Controller}
    (h : executeTransaction c header tx handling controller = .ok true controller') :
    action c header controller.memcachedImpl handling tx controller.state =
      .ok () controller'.state := by
  unfold executeTransaction at h
  simp only at h
  split at h
  · rename_i haction
    cases h
    exact haction
  · split at h
    · cases h
    · cases h

/-- With a ready trie a transaction always ends, in one of the two ways. -/
theorem executeTransaction_ends (header : BlockHeader) (tx : CoreTransaction) (handling : Handling)
    {controller : Controller} (hready : controller.state.top.isReady = true) :
    ∃ valid controller', executeTransaction c header tx handling controller =
      .ok valid controller' := by
  have hforward := ((stable_action (c := c) header controller.memcachedImpl handling tx).forward
    controller.state).2
  unfold executeTransaction
  cases haction : action c header controller.memcachedImpl handling tx controller.state with
  | ok _ state => exact ⟨true, _, rfl⟩
  | error e mid =>
      rw [haction] at hforward
      have hmid : mid.top.isReady = true := hforward.trans hready
      simp only [onTop, MerklePatriciaTrie.rollback_eq, if_pos hmid]
      exact ⟨false, _, rfl⟩

/-! ### A fresh state -/

def freshState : State :=
  Fallible.final (State.ready .transparent 0 ⟨[⟨⟨List.replicate 20 1, by simp⟩, 10⟩]⟩ (.new .transparent))

def freshController : Controller := ⟨freshState, ⟨false, .readOnly⟩⟩

def blankHeader : BlockHeader :=
  ⟨1, 0, Hash.zero, Hash.zero, Hash.zero, Hash.zero, Hash.zero, BlockHeader.one_lt,
    BlockHeader.zero_lt⟩

/-- The application sets a key and then breaks the connection. -/
def brokenConnection : Handling := ⟨[.set [107] 0 [1]], .error ⟨"connection closed"⟩⟩

theorem ok_of_value {σ α : Type} {r : EStateM.Result Error σ α} {a : α}
    (h : Fallible.value r = some a) : r = .ok a (Fallible.final r) := by
  cases r with
  | ok b s =>
      cases h
      rfl
  | error e s => cases h

end Controller

end EasyFramework
end UniqysKit
