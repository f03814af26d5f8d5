import UniqysKit.EasyFramework.Accesses
import UniqysKit.EasyFramework.Execution

/-!
# What executing a block depends on

Two states are alike if their tries are, and the height, the event nonce and the next validator set are
the same.  Executing a block does the same in alike states, whatever other nodes, results and meta data
there are, as long as the event provider answers the same.
-/

namespace UniqysKit
namespace EasyFramework

open Library

variable {c : Crypto} {keep : Hash → Prop}

/-- The states differ in nothing that the transactions of a block read. -/
structure State.Alike (c : Crypto) (keep : Hash → Prop) (state state' : State) : Prop where
  top : MerklePatriciaTrie.Alike c keep state.top state'.top
  height : state'.metaState.height = state.metaState.height
  eventNonce : state'.metaState.eventNonce = state.metaState.eventNonce
  nextValidatorSet : state'.metaState.nextValidatorSet = state.metaState.nextValidatorSet

/-- The action does the same in alike states, and leads to alike states. -/
abbrev Blind {α : Type} (c : Crypto) (keep : Hash → Prop) (action : Action State α) : Prop :=
  Fallible.Simulates (fun _ => True) (State.Alike c keep) action action

/-! ## Calls -/

section Calls

theorem blind_onTop {α : Type} {action : Action MerklePatriciaTrie α}
    (h : Fallible.Simulates (fun _ => True) (MerklePatriciaTrie.Alike c keep) action action) :
    Blind c keep (State.onTop action) := by
  refine ⟨fun _ _ => trivial, ?_⟩
  intro state state' halike _
  rcases h.same state.top state'.top halike.top trivial with ⟨hout, htop⟩
  rw [Controller.outcome_onTop, Controller.outcome_onTop, final_onTop, final_onTop]
  exact ⟨hout, htop, halike.height, halike.eventNonce, halike.nextValidatorSet⟩

theorem blind_fromResult {α : Type} (r : Result α) : Blind c keep (Action.fromResult r) := by
  cases r with
  | ok a => exact .pure a
  | error e => exact .throw e

theorem blind_getAccount (address : Address) : Blind c keep (State.getAccount address) :=
  (blind_onTop (MerklePatriciaTrie.simulates_get _)).bind fun _ => blind_fromResult _

theorem blind_setAccount (address : Address) (account : Account) :
    Blind c keep (State.setAccount c address account) :=
  (blind_fromResult _).bind fun _ => (blind_fromResult _).bind fun content =>
    blind_onTop (MerklePatriciaTrie.simulates_apply (.set content))

/-- Code does the same with alike tries. -/
theorem Code.simulates_alike {α : Type} (code : Code α) :
    Fallible.Simulates (fun _ => True) (MerklePatriciaTrie.Alike c keep) (code.onTrie c)
      (code.onTrie c) := by
  refine (Program.uses_any code).simulates ?_
  intro access _
  cases access with
  | get key => exact MerklePatriciaTrie.simulates_get key
  | apply op => exact MerklePatriciaTrie.simulates_apply op

variable {state state' : State}

/-- What the application cannot change stays as it is, so only the trie and the validators matter. -/
theorem State.Alike.of_settled {after after' : State} (h : state.Alike c keep state')
    (htop : MerklePatriciaTrie.Alike c keep after.top after'.top)
    (hsettled : after.metaState.settled = state.metaState.settled)
    (hsettled' : after'.metaState.settled = state'.metaState.settled)
    (hvalidators : after'.metaState.nextValidatorSet = after.metaState.nextValidatorSet) :
    after.Alike c keep after' := by
  have hheight := congrArg MetaState.height hsettled
  have hheight' := congrArg MetaState.height hsettled'
  have hnonce := congrArg MetaState.eventNonce hsettled
  have hnonce' := congrArg MetaState.eventNonce hsettled'
  exact ⟨htop, hheight'.trans (h.height.trans hheight.symm),
    hnonce'.trans (h.eventNonce.trans hnonce.symm), hvalidators⟩

theorem Call.alike_serve (memcached : EasyMemcached) (call : Call) (h : state.Alike c keep state') :
    (call.serve c memcached state).Alike c keep (call.serve c memcached state') := by
  refine h.of_settled ?_ ((apart_run memcached call).settles state)
    ((apart_run memcached call).settles state') ?_
  · rw [top_serve, top_serve]
    exact ((call.code memcached).simulates_alike.same _ _ h.top trivial).2
  · rw [serve_validators, serve_validators, h.nextValidatorSet]

theorem Call.alike_serveAll (memcached : EasyMemcached) (calls : List Call)
    (h : state.Alike c keep state') :
    (serveAll c memcached calls state).Alike c keep (serveAll c memcached calls state') := by
  induction calls generalizing state state' with
  | nil => exact h
  | cons call calls ih => exact ih (call.alike_serve memcached h)

end Calls

/-! ## Transactions -/

namespace Controller

open State

variable {header : BlockHeader}

theorem blind_prepare (tx : CoreTransaction) : Blind c keep (prepare c tx) := by
  cases tx with
  | normal hash sender nonce =>
      refine (blind_getAccount sender).bind ?_
      intro account
      simp only
      split
      · exact (Fallible.Simulates.throw _).bind fun _ => blind_setAccount sender _
      · exact blind_setAccount sender _
  | event hash nonce =>
      refine ⟨fun _ _ => trivial, ?_⟩
      intro state state' h _
      rw [prepare_event_eq, prepare_event_eq, incrementEventNonce_eq, incrementEventNonce_eq,
        h.eventNonce]
      split
      · split
        · exact ⟨rfl, h.top, h.height, rfl, h.nextValidatorSet⟩
        · exact ⟨rfl, h⟩
      · exact ⟨rfl, h⟩

theorem blind_handle (memcached : EasyMemcached) (handling : Handling) :
    Blind c keep (handle c memcached handling) := by
  have hcalls : Blind c keep
      (modify (Call.serveAll c { memcached with mode := .readWrite } handling.calls)) :=
    ⟨fun _ _ => trivial, fun _ _ h _ => ⟨rfl, Call.alike_serveAll _ _ h⟩⟩
  refine hcalls.bind fun _ => ?_
  cases handling.response with
  | ok res => exact .pure res
  | error e => exact .throw e

theorem blind_finish (res : HttpResponse) (tx : CoreTransaction) :
    Blind c keep (finish header res tx) := by
  have hcheck : Blind c keep (checkStatus res) := by
    unfold checkStatus
    split
    · exact .throw _
    · exact .pure _
  cases tx with
  | normal hash sender nonce =>
      have hset : Blind c keep (setResult hash ⟨header.height, res⟩) :=
        (blind_fromResult _).bind fun bytes => ⟨fun _ _ => trivial,
          fun _ _ h _ => ⟨rfl, h.top, h.height, h.eventNonce, h.nextValidatorSet⟩⟩
      exact hset.bind fun _ => hcheck
  | event hash nonce => exact hcheck

variable (header) in
theorem blind_action (memcached : EasyMemcached) (handling : Handling) (tx : CoreTransaction) :
    Blind c keep (action c header memcached handling tx) := by
  rw [action_eq]
  exact (blind_prepare tx).bind fun _ => (blind_handle memcached handling).bind fun res =>
    blind_finish res tx

/-- The states are alike, and the memcached servers are the same. -/
structure Alike (c : Crypto) (keep : Hash → Prop) (controller controller' : Controller) : Prop where
  state : controller.state.Alike c keep controller'.state
  memcachedImpl : controller'.memcachedImpl = controller.memcachedImpl

/-- The catch branch finds in both stores the root that the transaction has started from. -/
theorem simulates_executeTransaction (tx : CoreTransaction) (handling : Handling) :
    Fallible.Simulates (fun _ => True) (Alike c keep) (executeTransaction c header tx handling)
      (executeTransaction c header tx handling) := by
  refine ⟨fun _ _ => trivial, ?_⟩
  intro controller controller' h _
  have hroot : controller'.state.top.rootHash = controller.state.top.rootHash := h.state.top.rootHash
  have hstart : controller.state.Alike c (fun hash => keep hash ∨ hash =
      controller.state.top.rootHash) controller'.state :=
    ⟨h.state.top.keepRoot, h.state.height, h.state.eventNonce, h.state.nextValidatorSet⟩
  have hforget : ∀ {state state' : State}, state.Alike c (fun hash => keep hash ∨ hash =
      controller.state.top.rootHash) state' → state.Alike c keep state' := fun halike =>
    ⟨halike.top.mono fun _ => .inl, halike.height, halike.eventNonce, halike.nextValidatorSet⟩
  rcases (blind_action header controller.memcachedImpl handling tx).same _ _ hstart trivial
    with ⟨hout, hend⟩
  unfold executeTransaction
  simp only [h.memcachedImpl, hroot]
  rcases Fallible.outcome_eq_cases hout with
    ⟨_, state, state', haction, haction'⟩ | ⟨e, state, state', haction, haction'⟩
  · rw [haction, haction'] at hend
    rw [haction, haction']
    exact ⟨rfl, hforget hend, rfl⟩
  · rw [haction, haction'] at hend
    rw [haction, haction']
    rcases (blind_onTop (MerklePatriciaTrie.simulates_rollback (.inr rfl))).same state state' hend
      trivial with ⟨hout', hend'⟩
    simp only
    rcases Fallible.outcome_eq_cases hout' with
      ⟨_, mid, mid', hmid, hmid'⟩ | ⟨e', mid, mid', hmid, hmid'⟩
    · rw [hmid, hmid'] at hend'
      rw [hmid, hmid']
      exact ⟨rfl, hforget hend', rfl⟩
    · rw [hmid, hmid'] at hend'
      rw [hmid, hmid']
      exact ⟨rfl, hforget hend', rfl⟩

variable (header) in
theorem simulates_executeAllCore (coreTxs : List (UniqysKit.Transaction × Handling)) :
    Fallible.Simulates (fun _ => True) (Alike c keep) (executeAllCore c header coreTxs)
      (executeAllCore c header coreTxs) := by
  induction coreTxs with
  | nil => exact .pure _
  | cons entry rest ih =>
      have hdecode : Fallible.Simulates (fun _ => True) (Alike c keep)
          (Action.fromResult (CoreTransaction.decode c entry.1))
          (Action.fromResult (CoreTransaction.decode c entry.1)) := by
        cases CoreTransaction.decode c entry.1 with
        | ok tx => exact .pure tx
        | error e => exact .throw e
      exact hdecode.bind fun tx => (simulates_executeTransaction tx entry.2).bind fun _ =>
        ih.bind fun _ => .pure _

/-! ## Blocks -/

/-- For what comes after the events so far, the provider gives the same since either time. -/
def AnswersAlike (eventProvider : Option EventProvider) (eventNonce since since' : Nat) : Prop :=
  ∀ getTransactions, eventProvider = some getTransactions → ∀ timestamp nonce, eventNonce < nonce →
    getTransactions since timestamp nonce = getTransactions since' timestamp nonce

theorem le_eventNonceAfter (coreTxs : List (UniqysKit.Transaction × Handling)) (eventNonce : Nat) :
    eventNonce ≤ eventNonceAfter c coreTxs eventNonce := by
  induction coreTxs generalizing eventNonce with
  | nil => exact Nat.le_refl _
  | cons entry rest ih =>
      refine Nat.le_trans ?_ (ih _)
      simp only
      cases CoreTransaction.decode c entry.1 with
      | error e => exact Nat.le_refl _
      | ok tx =>
          cases tx with
          | normal hash sender nonce => exact Nat.le_refl _
          | event hash nonce =>
              simp only [nextEventNonce]
              split
              · exact Nat.le_succ _
              · exact Nat.le_refl _

theorem getAppState_updated (header : BlockHeader) (validTxHashes : List Hash) (eventExists : Bool)
    (controller : Controller) (eventTxs : List UniqysKit.Transaction) :
    getAppState c (updated c header validTxHashes eventExists controller eventTxs).state =
      ⟨controller.state.metaState.height + 1,
        getMerkleRoot c controller.state.top.rootHash validTxHashes,
        controller.state.metaState.nextValidatorSet,
        MerkleTree.root c (eventTxs.map (UniqysKit.Transaction.hash c))⟩ := by
  simp only [getAppState, updated, MetaState.raised, Function.update_self, Option.getD_some]

/-- The last part of a block comes to the same. -/
theorem outcome_finished {eventProvider : Option EventProvider} {validTxHashes : List Hash}
    {eventExists : Bool} {next next' : Controller} (h : Alike c keep next next')
    (hevents : eventTransactions eventProvider next'.state.metaState header.timestamp =
      eventTransactions eventProvider next.state.metaState header.timestamp) :
    Fallible.outcome ((do
      updateStateInfo c eventProvider header validTxHashes eventExists
      return getAppState c (← get).state : Action Controller AppState) next') =
    Fallible.outcome ((do
      updateStateInfo c eventProvider header validTxHashes eventExists
      return getAppState c (← get).state : Action Controller AppState) next) := by
  have heq := @updateStateInfo_eq c eventProvider header validTxHashes eventExists next
  have heq' := @updateStateInfo_eq c eventProvider header validTxHashes eventExists next'
  rw [hevents, h.state.height] at heq'
  cases hread : eventTransactions eventProvider next.state.metaState header.timestamp with
  | error e =>
      rw [hread] at heq heq'
      rw [Fallible.bind_error heq, Fallible.bind_error heq']
      rfl
  | ok eventTxs =>
      rw [hread] at heq heq'
      by_cases hlt : next.state.metaState.height + 1 < 2 ^ 48
      · simp only [if_pos hlt] at heq heq'
        rw [Fallible.bind_ok heq, Fallible.bind_ok heq']
        show Except.ok (getAppState c _) = Except.ok (getAppState c _)
        rw [getAppState_updated, getAppState_updated, h.state.height, h.state.top.rootHash,
          h.state.nextValidatorSet]
      · simp only [if_neg hlt] at heq heq'
        rw [Fallible.bind_error heq, Fallible.bind_error heq']
        rfl

/-- In alike states a block comes to the same `AppState`, or throws the same. -/
theorem Alike.outcome_eq {controller controller' : Controller} (h : Alike c keep controller controller')
    {eventProvider : Option EventProvider}
    (hanswers : AnswersAlike eventProvider controller.state.metaState.eventNonce
      controller.state.metaState.latestEventTimestamp
      controller'.state.metaState.latestEventTimestamp)
    (header : BlockHeader) (coreTxs : List (UniqysKit.Transaction × Handling)) :
    Fallible.outcome (executeCoreTransactions c eventProvider header coreTxs controller') =
      Fallible.outcome (executeCoreTransactions c eventProvider header coreTxs controller) := by
  rcases (simulates_executeAllCore header coreTxs).same _ _ h trivial with ⟨hout, hend⟩
  unfold executeCoreTransactions
  rcases Fallible.outcome_eq_cases hout with
    ⟨validTxHashes, next, next', hrun, hrun'⟩ | ⟨e, next, next', hrun, hrun'⟩
  · rw [hrun, hrun'] at hend
    rw [Fallible.bind_ok hrun, Fallible.bind_ok hrun']
    refine outcome_finished hend ?_
    -- the provider is asked for what comes after the events of the block
    cases eventProvider with
    | none => rfl
    | some getTransactions =>
        have hsettled := executeAllCore_settled hrun
        have hsince : next.state.metaState.latestEventTimestamp =
            controller.state.metaState.latestEventTimestamp := by
          simpa using congrArg MetaState.latestEventTimestamp hsettled
        have hsince' : next'.state.metaState.latestEventTimestamp =
            controller'.state.metaState.latestEventTimestamp := by
          simpa using congrArg MetaState.latestEventTimestamp (executeAllCore_settled hrun')
        have hnonce : next.state.metaState.eventNonce =
            eventNonceAfter c coreTxs controller.state.metaState.eventNonce := by
          simpa using congrArg MetaState.eventNonce hsettled
        have hnonce' : next'.state.metaState.eventNonce = next.state.metaState.eventNonce :=
          hend.state.eventNonce
        have hle := le_eventNonceAfter (c := c) coreTxs controller.state.metaState.eventNonce
        simp only [eventTransactions]
        rw [hnonce', hsince, hsince', hnonce]
        exact (hanswers getTransactions rfl _ _ (by omega)).symm
  · rw [Fallible.bind_error hrun, Fallible.bind_error hrun']
    rfl

end Controller

end EasyFramework
end UniqysKit
