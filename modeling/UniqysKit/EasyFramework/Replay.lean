import UniqysKit.EasyFramework.Events
import UniqysKit.EasyFramework.FailedTransaction
import UniqysKit.EasyFramework.KeySpaces

/-!
# No transaction is executed twice

The nonce of an account is in the trie that the application writes to, and goes back when a
transaction fails.  Nothing the application can do changes the nonce of an account, but for the zero
address, so each valid transaction of a signer has the nonce after that of the one before, over all
blocks.  Rolling back is taken to be exact: the store still holds the nodes of the old root.
-/

namespace UniqysKit
namespace EasyFramework

open Library

/-! ## Nonces in the contents -/

/-- What is written of an account has its nonce. -/
theorem accountOf_serialize {account : Account} {value : Bytes} (h : account.serialize = .ok value) :
    ∃ balance, State.accountOf (some value) = .ok ⟨account.nonce, balance⟩ := by
  rcases Result.bind_eq_ok.1 h with ⟨nonce, hnonce, h⟩
  rcases Result.bind_eq_ok.1 h with ⟨written, hwritten, h⟩
  rcases Result.bind_eq_ok.1 h with ⟨balance, hbalance, h⟩
  cases h
  have hread := UInt64.deserialize_append hbalance []
  rw [List.append_nil] at hread
  refine ⟨written, ?_⟩
  simp only [State.accountOf, Account.deserialize, UInt64.deserialize_append hnonce, hread,
    Result.ok_bind, Result.pure_eq]

/-- The nonces of the accounts, but for the zero address. -/
def Nonces (n : Address → Nat) (contents : Contents) : Prop :=
  ∀ address, address ≠ Address.zero →
    ∃ account, State.accountOf (contents address.buffer) = .ok account ∧ account.nonce = n address

section Contents

variable {n n' : Address → Nat} {contents contents' : Contents}

theorem Nonces.congr (h : Nonces n contents)
    (hn : ∀ address, address ≠ Address.zero → n address = n' address) : Nonces n' contents := by
  intro address haddress
  rcases h address haddress with ⟨account, haccount, hnonce⟩
  exact ⟨account, haccount, hnonce.trans (hn address haddress)⟩

/-- The entries of the accounts are all that matters. -/
theorem Nonces.of_entries (h : Nonces n contents)
    (hentries : ∀ address, address ≠ Address.zero → contents' address.buffer = contents address.buffer) :
    Nonces n contents' := by
  intro address haddress
  rw [hentries address haddress]
  exact h address haddress

theorem Nonces.ends_getAccount (h : Nonces n contents) (address : Address) :
    Fallible.Ends (InnerApi.getAccountCode address).onContents contents
      (fun account contents' => contents' = contents ∧
        (address ≠ Address.zero → account.nonce = n address))
      (fun contents' => contents' = contents) := by
  have hrun : (InnerApi.getAccountCode address).onContents contents =
      Code.onContents (.done (State.accountOf (contents address.buffer))) contents := rfl
  unfold Fallible.Ends
  rw [hrun]
  cases haccount : State.accountOf (contents address.buffer) with
  | ok account =>
      refine ⟨rfl, ?_⟩
      intro haddress
      rcases h address haddress with ⟨account', haccount', hnonce⟩
      rw [haccount] at haccount'
      cases haccount'
      exact hnonce
  | error e => exact rfl

theorem Nonces.ends_setAccount (h : Nonces n contents) (address : Address) (account : Account) :
    Fallible.Ends (InnerApi.setAccountCode address account).onContents contents
      (fun _ contents' => Nonces (Function.update n address account.nonce) contents')
      (fun contents' => contents' = contents) := by
  simp only [InnerApi.setAccountCode, Code.onContents, Program.run_bind, Fallible.ends_bind]
  cases hvalue : account.serialize with
  | error e => exact rfl
  | ok value =>
      refine Fallible.ends_pure.mpr ?_
      cases hcontent : State.content address.buffer value with
      | error e => exact rfl
      | ok content =>
          rcases content_ok hcontent with ⟨hkey, hvalue'⟩
          show Nonces _ ((Operation.set content).update contents)
          intro other hother
          -- what was written is read again, and the other addresses have other keys
          by_cases heq : other = address
          · subst heq
            rcases accountOf_serialize hvalue with ⟨balance, hread⟩
            refine ⟨⟨account.nonce, balance⟩, ?_, by rw [Function.update_self]⟩
            simp only [Operation.update, hkey, hvalue', if_true]
            exact hread
          · have hne : other.buffer ≠ address.buffer := fun hbuffer => heq (Address.ext hbuffer)
            rw [Function.update_of_ne heq]
            simp only [Operation.update, hkey, if_neg hne]
            exact h other hother

/-- Writing an account back with the nonce it was read with. -/
theorem Nonces.ends_rewrite (h : Nonces n contents) {address : Address} {account : Account}
    (hnonce : address ≠ Address.zero → account.nonce = n address) :
    Fallible.Ends (InnerApi.setAccountCode address account).onContents contents (fun _ => Nonces n)
      (Nonces n) := by
  refine (h.ends_setAccount address account).mono ?_ ?_
  · intro _ contents' h'
    refine h'.congr ?_
    intro other hother
    by_cases heq : other = address
    · subst heq
      rw [Function.update_self, hnonce hother]
    · rw [Function.update_of_ne heq]
  · rintro contents' rfl
    exact h

/-- Without a value the code throws. -/
theorem ends_assert400 {α : Type} {value : Option α} {Q : α → Contents → Prop} {E : Contents → Prop}
    (hQ : ∀ a, Q a contents) (hE : E contents) :
    Fallible.Ends ((InnerApi.assert400Code value).run Access.exact) contents Q E := by
  cases value with
  | some a => exact hQ a
  | none => exact hE

theorem Nonces.ends_putBalance (h : Nonces n contents) (address : Option Address)
    (balance : Option ℚ) :
    Fallible.Ends (InnerApi.putBalanceCode address balance).onContents contents (fun _ => Nonces n)
      (Nonces n) := by
  simp only [InnerApi.putBalanceCode, Code.onContents, Program.run_bind, Fallible.ends_bind]
  refine ends_assert400 (fun address => ends_assert400 (fun balance => ?_) h) h
  refine (h.ends_getAccount address).mono ?_ ?_
  · rintro account contents' ⟨rfl, hnonce⟩
    exact h.ends_rewrite hnonce
  · rintro contents' rfl
    exact h

theorem decreaseBalance_nonce {account decreased : Account} {value : ℚ}
    (h : account.decreaseBalance value = .ok decreased) : decreased.nonce = account.nonce := by
  unfold Account.decreaseBalance at h
  split at h
  · cases h
  · cases h
    rfl

theorem Nonces.ends_transfer (h : Nonces n contents) (fromAddress toAddress : Option Address)
    (value : Option ℚ) :
    Fallible.Ends (InnerApi.transferCode fromAddress toAddress value).onContents contents
      (fun _ => Nonces n) (Nonces n) := by
  simp only [InnerApi.transferCode, Code.onContents, Program.run_bind, Fallible.ends_bind]
  refine ends_assert400 (fun fromAddress => ends_assert400 (fun toAddress =>
    ends_assert400 (fun value => ?_) h) h) h
  refine (h.ends_getAccount fromAddress).mono ?_ ?_
  · rintro fromAccount contents' ⟨rfl, hnonce⟩
    cases hdecrease : fromAccount.decreaseBalance value with
    | error e => exact h
    | ok decreased =>
        have hnonce' := decreaseBalance_nonce hdecrease
        -- the second account is read after the first was written
        refine Fallible.ends_pure.mpr ?_
        refine (h.ends_rewrite fun hzero => hnonce'.trans (hnonce hzero)).mono ?_ fun _ => id
        intro _ contents' h'
        refine (h'.ends_getAccount toAddress).mono ?_ ?_
        · rintro toAccount contents'' ⟨rfl, hnonce''⟩
          exact h'.ends_rewrite hnonce''
        · rintro contents'' rfl
          exact h'
  · rintro contents' rfl
    exact h

/-- No call changes a nonce. -/
theorem Nonces.onContents (h : Nonces n contents) (memcached : EasyMemcached) (call : Call) :
    Nonces n (Fallible.final ((call.code memcached).onContents contents)) := by
  cases call with
  | getAccount address part =>
      show Nonces n (Fallible.final ((InnerApi.readAccountCode address part).onContents contents))
      rwa [InnerApi.final_readAccount]
  | putBalance address balance => exact (h.ends_putBalance address balance).final
  | transfer fromAddress toAddress value =>
      exact (h.ends_transfer fromAddress toAddress value).final
  | _ =>
      refine h.of_entries fun address haddress => ?_
      refine Call.onContents_of_notMem memcached _ contents ?_
      refine Call.buffer_notMem_footprint ?_ ?_ ?_ haddress
      · nofun
      · nofun
      · nofun

/-- A request is only sent for the next nonce, which is written before. -/
theorem Nonces.ends_prepare (h : Nonces n contents) (sender : Address) (nonce : Nat) :
    Fallible.Ends (prepareCode sender nonce).onContents contents
      (fun _ contents' => (sender ≠ Address.zero → nonce = n sender + 1) ∧
        Nonces (Function.update n sender (n sender + 1)) contents')
      fun _ => True := by
  simp only [prepareCode, Code.onContents, Program.run_bind, Fallible.ends_bind]
  refine (h.ends_getAccount sender).mono ?_ fun _ _ => trivial
  rintro account contents' ⟨rfl, hnonce⟩
  split
  · trivial
  · rename_i hnext
    refine (h.ends_setAccount sender account.incrementNonce).mono ?_ fun _ _ => trivial
    intro _ contents'' h'
    have hsucc : sender ≠ Address.zero → account.incrementNonce.nonce = n sender + 1 := fun hzero =>
      congrArg (· + 1) (hnonce hzero)
    refine ⟨fun hzero => (not_not.mp hnext).trans (hsucc hzero), h'.congr ?_⟩
    intro other hother
    by_cases heq : other = sender
    · subst heq
      rw [Function.update_self, Function.update_self, hsucc hother]
    · rw [Function.update_of_ne heq, Function.update_of_ne heq]

end Contents

/-! ## States and calls -/

/-- The state is sound, and these are the nonces of its accounts. -/
structure Counted (c : Crypto) (n : Address → Nat) (state : State) : Prop where
  sound : state.Sound c
  nonces : ∃ contents, Represents c state.top contents ∧ Nonces n contents

section States

variable {c : Crypto} {n n' : Address → Nat} {state state' : State}

theorem Counted.of_top (h : Counted c n state) (htop : state'.top = state.top) : Counted c n state' := by
  rcases h with ⟨⟨t, ht, hkeys⟩, contents, hrep, hnonces⟩
  rw [← htop] at ht hrep
  exact ⟨⟨t, ht, hkeys⟩, contents, hrep, hnonces⟩

theorem Counted.congr (h : Counted c n state)
    (hn : ∀ address, address ≠ Address.zero → n address = n' address) : Counted c n' state := by
  rcases h with ⟨hsound, contents, hrep, hnonces⟩
  exact ⟨hsound, contents, hrep, hnonces.congr hn⟩

theorem counted_ready (timestamp : Nat) (initialValidatorSet : ValidatorSet) :
    Counted c (fun _ => 0)
      (Fallible.final (State.ready c timestamp initialValidatorSet (State.new c))) :=
  ⟨ready_sound timestamp initialValidatorSet, _, represents_ready timestamp initialValidatorSet,
    fun _ _ => ⟨Account.default, rfl, rfl⟩⟩

theorem Counted.getAccount (h : Counted c n state) {address : Address} (haddress : address ≠ Address.zero) :
    ∃ account, Fallible.outcome (State.getAccount address state) = .ok account ∧
      account.nonce = n address := by
  rcases h with ⟨-, contents, hrep, hnonces⟩
  rw [outcome_getAccount_of_represents hrep]
  exact hnonces address haddress

theorem Counted.serve (h : Counted c n state) (memcached : EasyMemcached) (call : Call)
    (hc : NoCollision c (call.serve c memcached state).saved) :
    Counted c n (call.serve c memcached state) := by
  rcases h with ⟨hsound, contents, hrep, hnonces⟩
  exact ⟨(Call.stable_run memcached call).sound state hsound hc, _,
    represents_serve hrep memcached call hc, hnonces.onContents memcached call⟩

theorem Counted.serveAll (h : Counted c n state) (memcached : EasyMemcached) (calls : List Call)
    (hc : NoCollision c (Call.serveAll c memcached calls state).saved) :
    Counted c n (Call.serveAll c memcached calls state) := by
  induction calls generalizing state with
  | nil => exact h
  | cons call calls ih =>
      have hgrow := (Call.stable_serveAll (c := c) memcached calls).forward
        (call.serve c memcached state)
      exact ih (h.serve memcached call (hc.mono hgrow.1.subset)) hc

end States

/-! ## Recorded transactions -/

/-- The nonces of the normal transactions of a signer, in their order. -/
def noncesOf (signer : Address) (txs : List CoreTransaction) : List Nat :=
  txs.filterMap fun
    | .normal _ sender nonce => if sender = signer then some nonce else none
    | .event _ _ => none

/-- The nonces after these transactions, one more for each transaction of the account. -/
def noncesAfter (n : Address → Nat) (txs : List CoreTransaction) (address : Address) : Nat :=
  n address + (noncesOf address txs).length

/-- The nonces of each signer, but for the zero address, follow on one another. -/
def Continues (n : Address → Nat) (txs : List CoreTransaction) : Prop :=
  ∀ signer, signer ≠ Address.zero →
    noncesOf signer txs = List.range' (n signer + 1) (noncesOf signer txs).length

section Recorded

variable {n : Address → Nat} {txs txs' : List CoreTransaction}

theorem noncesOf_append (signer : Address) :
    noncesOf signer (txs ++ txs') = noncesOf signer txs ++ noncesOf signer txs' :=
  List.filterMap_append

theorem noncesAfter_append : noncesAfter n (txs ++ txs') = noncesAfter (noncesAfter n txs) txs' := by
  funext address
  simp only [noncesAfter, noncesOf_append, List.length_append, Nat.add_assoc]

theorem continues_nil : Continues n [] := fun _ _ => rfl

theorem Continues.append (h : Continues n txs) (h' : Continues (noncesAfter n txs) txs') :
    Continues n (txs ++ txs') := by
  intro signer hsigner
  have hstart : n signer + 1 + (noncesOf signer txs).length = noncesAfter n txs signer + 1 := by
    simp only [noncesAfter]
    omega
  calc
    noncesOf signer (txs ++ txs') = noncesOf signer txs ++ noncesOf signer txs' :=
      noncesOf_append signer
    _ = List.range' (n signer + 1) (noncesOf signer txs).length ++
          List.range' (noncesAfter n txs signer + 1) (noncesOf signer txs').length := by
        rw [← h signer hsigner, ← h' signer hsigner]
    _ = List.range' (n signer + 1) (noncesOf signer (txs ++ txs')).length := by
        rw [← hstart, List.range'_append_1, noncesOf_append, List.length_append]

end Recorded

/-! ## Transactions -/

namespace Controller

section Transactions

variable {c : Crypto} {n : Address → Nat} {state state' : State}

/-- What comes before the request counts the transaction. -/
theorem counted_prepare (h : Counted c n state) {tx : CoreTransaction}
    (hprepare : Controller.prepare c tx state = .ok () state') (hc : NoCollision c state'.saved) :
    Counted c (noncesAfter n [tx]) state' ∧ Continues n [tx] := by
  have hquiet := (quiet_prepare (c := c) tx).sound state h.sound
  rw [hprepare] at hquiet
  cases tx with
  | event hash nonce =>
      -- an event counts in the meta data, not in the accounts
      have htop : state'.top = state.top := by
        rw [prepare_event_eq, incrementEventNonce_eq] at hprepare
        split at hprepare
        · split at hprepare
          · cases hprepare
            rfl
          · cases hprepare
        · cases hprepare
      exact ⟨(h.of_top htop).congr fun _ _ => rfl, fun _ _ => rfl⟩
  | normal hash sender nonce =>
      rcases h with ⟨-, contents, hrep, hnonces⟩
      have hmatches := (matches_prepare c hash sender nonce).onContents hrep
      rw [hprepare] at hmatches
      rcases hmatches hc with ⟨hout, hrep'⟩
      have hends := hnonces.ends_prepare sender nonce
      unfold Fallible.Ends at hends
      cases hrun : (prepareCode sender nonce).onContents contents with
      | error e contents' =>
          rw [hrun] at hout
          cases hout
      | ok _ contents' =>
          rw [hrun] at hends hrep'
          rcases hends with ⟨hnonce, hnonces'⟩
          refine ⟨⟨hquiet hc, contents', hrep', hnonces'.congr ?_⟩, ?_⟩
          · intro address _
            by_cases heq : address = sender
            · subst heq
              simp [noncesAfter, noncesOf]
            · simp [noncesAfter, noncesOf, heq, Ne.symm heq]
          · intro signer hsigner
            by_cases heq : sender = signer
            · subst heq
              simp [noncesOf, hnonce hsigner]
            · simp [noncesOf, heq]

/-- A valid transaction counts, whatever the application has called. -/
theorem counted_of_valid (h : Counted c n state) {header : BlockHeader} {memcached : EasyMemcached}
    {handling : Handling} {tx : CoreTransaction}
    (haction : action c header memcached handling tx state = .ok () state')
    (hc : NoCollision c state'.saved) :
    Counted c (noncesAfter n [tx]) state' ∧ Continues n [tx] := by
  rw [action_eq] at haction
  rcases Fallible.bind_cases (Controller.prepare c tx) _ state with
    ⟨_, prepared, hprepare, hbind⟩ | ⟨e, prepared, -, hbind⟩
  · rw [hbind] at haction
    rcases Fallible.bind_cases (handle c memcached handling) _ prepared with
      ⟨res, handled, hhandle, hbind'⟩ | ⟨e, handled, -, hbind'⟩
    · rw [hbind'] at haction
      -- the calls of the application come between the nonce and the end, where nothing is written
      have hfinal := final_handle (c := c) memcached handling prepared
      have hgrow := (stable_handle (c := c) memcached handling).forward prepared
      have htop := top_finish header res tx handled
      rw [hhandle] at hfinal hgrow
      rw [haction] at htop
      have htop' : state'.top = handled.top := htop
      have hsaved : state'.saved = handled.saved := congrArg MerklePatriciaTrie.saved htop'
      rw [hsaved] at hc
      rcases counted_prepare h hprepare (hc.mono hgrow.1.subset) with ⟨hprepared, hcontinues⟩
      have hfinal' : handled = Call.serveAll c { memcached with mode := .readWrite }
        handling.calls prepared := hfinal
      rw [hfinal'] at hc
      have hhandled := hprepared.serveAll _ handling.calls hc
      rw [← hfinal'] at hhandled
      exact ⟨hhandled.of_top htop', hcontinues⟩
    · rw [hbind'] at haction
      cases haction
  · rw [hbind] at haction
    cases haction

/-- With the nodes of the old root still there, a failed transaction counts for nothing. -/
theorem counted_of_failed (h : Counted c n state) {header : BlockHeader} {memcached : EasyMemcached}
    {handling : Handling} {tx : CoreTransaction} {mid : State} {e : Error}
    (haction : action c header memcached handling tx state = .error e mid)
    (hready : mid.top.isReady = true) (hnodes : MerklePatriciaTrie.Retained state.top mid.top)
    (hc : NoCollision c mid.saved) : Counted c n (rolledBack state mid) := by
  have hstable := stable_action (c := c) header memcached handling tx
  have hforward := hstable.forward state
  have hlater := hstable.sound state h.sound
  rw [haction] at hforward hlater
  rcases hlater hc with ⟨t', ht', -⟩
  have hback : ∀ t, state.top.Sound c t → (rolledBack state mid).top.Sound c t := fun t ht =>
    hnodes.sound ht hready ht'.consistent hforward.1.subset
  rcases h with ⟨⟨t, ht, hkeys⟩, contents, ⟨u, hu, hcontents⟩, hnonces⟩
  exact ⟨⟨t, hback t ht, hkeys⟩, contents, ⟨u, hback u hu, hcontents⟩, hnonces⟩

end Transactions

/-! ## Blocks -/

section Histories

variable (c : Crypto) (eventProvider : Option EventProvider)

/-- The transactions of a block that turn out valid. -/
def validTransactions (header : BlockHeader) :
    List (UniqysKit.Transaction × Handling) → Controller → List CoreTransaction
  | [], _ => []
  | (coreTx, handling) :: rest, controller =>
      match CoreTransaction.decode c coreTx with
      | .error _ => []
      | .ok tx =>
          match executeTransaction c header tx handling controller with
          | .ok true next => tx :: validTransactions header rest next
          | .ok false next => validTransactions header rest next
          | .error _ _ => []

/-- Rolling back is exact: when a transaction of the block fails, the store holds each node of the
old root as it was. -/
def RollsBack (header : BlockHeader) :
    List (UniqysKit.Transaction × Handling) → Controller → Prop
  | [], _ => True
  | (coreTx, handling) :: rest, controller =>
      ∀ tx valid next, CoreTransaction.decode c coreTx = .ok tx →
        executeTransaction c header tx handling controller = .ok valid next →
          (valid = false → MerklePatriciaTrie.Retained controller.state.top (Fallible.final
            (action c header controller.memcachedImpl handling tx controller.state)).top) ∧
          RollsBack header rest next

/-- Blocks that are executed one after another. -/
def executeChain : List Execution → Action Controller Unit
  | [] => return
  | execution :: rest => do
      let _ ← executeCoreTransactions c eventProvider execution.header execution.coreTxs
      executeChain rest

/-- The valid transactions of each block. -/
def history : List Execution → Controller → List (List CoreTransaction)
  | [], _ => []
  | execution :: rest, controller =>
      validTransactions c execution.header execution.coreTxs controller ::
        history rest (execute c eventProvider controller execution)

/-- Rolling back is exact in each block. -/
def ChainRollsBack : List Execution → Controller → Prop
  | [], _ => True
  | execution :: rest, controller =>
      RollsBack c execution.header execution.coreTxs controller ∧
        ChainRollsBack rest (execute c eventProvider controller execution)

end Histories

section Blocks

variable {c : Crypto} {eventProvider : Option EventProvider} {n : Address → Nat}
  {controller controller' : Controller}

/-- Nothing takes saved nodes away. -/
theorem forward_executeTransaction (header : BlockHeader) (tx : CoreTransaction) (handling : Handling) :
    Fallible.Respects (.comap (fun controller : Controller => controller.state.top)
      MerklePatriciaTrie.forward) (executeTransaction c header tx handling) := by
  intro controller
  have hforward := (stable_action (c := c) header controller.memcachedImpl handling tx).forward
    controller.state
  unfold executeTransaction
  cases haction : action c header controller.memcachedImpl handling tx controller.state with
  | ok _ state =>
      rw [haction] at hforward
      exact hforward
  | error e mid =>
      rw [haction] at hforward
      -- the catch branch sets the root and saves nothing
      simp only [State.onTop, MerklePatriciaTrie.rollback_eq]
      cases hready : mid.top.isReady with
      | true => exact ⟨hforward.1, hready.symm.trans hforward.2⟩
      | false => exact hforward

/-- A transaction of a block that is executed counts if it is valid. -/
theorem counted_executeTransaction (h : Counted c n controller.state) {header : BlockHeader}
    {tx : CoreTransaction} {handling : Handling} {valid : Bool}
    (hexecute : executeTransaction c header tx handling controller = .ok valid controller')
    (hnodes : valid = false → MerklePatriciaTrie.Retained controller.state.top (Fallible.final
      (action c header controller.memcachedImpl handling tx controller.state)).top)
    (hc : NoCollision c controller'.state.saved) :
    Counted c (noncesAfter n (if valid then [tx] else [])) controller'.state ∧
      Continues n (if valid then [tx] else []) := by
  cases valid with
  | true => exact counted_of_valid h (executeTransaction_true hexecute) hc
  | false =>
      rcases executeTransaction_false hexecute with ⟨e, mid, haction, hready, hstate⟩
      have hnodes' := hnodes rfl
      rw [haction] at hnodes'
      rw [hstate] at hc ⊢
      exact ⟨counted_of_failed h haction hready hnodes' hc, continues_nil⟩

theorem forward_executeAllCore (header : BlockHeader)
    (coreTxs : List (UniqysKit.Transaction × Handling)) :
    Fallible.Respects (.comap (fun controller : Controller => controller.state.top)
      MerklePatriciaTrie.forward) (executeAllCore c header coreTxs) := by
  induction coreTxs with
  | nil => exact .pure _
  | cons entry rest ih =>
      rcases entry with ⟨coreTx, handling⟩
      unfold executeAllCore
      cases CoreTransaction.decode c coreTx with
      | error e => exact .throw e
      | ok tx => exact (forward_executeTransaction header tx handling).bind fun _ => ih.bind fun _ => .pure _

section Block

variable {header : BlockHeader} {coreTxs : List (UniqysKit.Transaction × Handling)}
  {validTxHashes : List Hash}

/-- The valid transactions of a block, from its first transaction on. -/
theorem validTransactions_cons {coreTx : UniqysKit.Transaction} {handling : Handling}
    {tx : CoreTransaction} {valid : Bool} {next : Controller}
    (hdecode : CoreTransaction.decode c coreTx = .ok tx)
    (hexecute : executeTransaction c header tx handling controller = .ok valid next) :
    validTransactions c header ((coreTx, handling) :: coreTxs) controller =
      (if valid then [tx] else []) ++ validTransactions c header coreTxs next := by
  cases valid with
  | true => simp [validTransactions, hdecode, hexecute]
  | false => simp [validTransactions, hdecode, hexecute]

/-- The loop returns the hashes of the valid transactions. -/
theorem validTxHashes_eq
    (h : executeAllCore c header coreTxs controller = .ok validTxHashes controller') :
    validTxHashes = (validTransactions c header coreTxs controller).map CoreTransaction.hash := by
  induction coreTxs generalizing controller validTxHashes with
  | nil =>
      cases h
      rfl
  | cons entry rest ih =>
      rcases entry with ⟨coreTx, handling⟩
      rcases executeAllCore_cons h with ⟨tx, valid, next, others, hdecode, hexecute, hrest⟩
      unfold executeAllCore at h
      rw [Action.fromResult_bind_ok hdecode, Fallible.bind_ok hexecute, Fallible.bind_ok hrest] at h
      rw [validTransactions_cons hdecode hexecute, List.map_append, ← ih hrest]
      cases h
      cases valid with
      | true => rfl
      | false => rfl

/-- The loop counts the valid transactions. -/
theorem counted_executeAllCore (h : Counted c n controller.state)
    (hall : executeAllCore c header coreTxs controller = .ok validTxHashes controller')
    (hexact : RollsBack c header coreTxs controller) (hc : NoCollision c controller'.state.saved) :
    Counted c (noncesAfter n (validTransactions c header coreTxs controller)) controller'.state ∧
      Continues n (validTransactions c header coreTxs controller) := by
  induction coreTxs generalizing n controller validTxHashes with
  | nil =>
      cases hall
      exact ⟨h, continues_nil⟩
  | cons entry rest ih =>
      rcases entry with ⟨coreTx, handling⟩
      rcases executeAllCore_cons hall with ⟨tx, valid, next, others, hdecode, hexecute, hrest⟩
      have hgrow := forward_executeAllCore (c := c) header rest next
      rw [hrest] at hgrow
      rcases hexact tx valid next hdecode hexecute with ⟨hnodes, hexact'⟩
      obtain ⟨hnext, hcontinues⟩ := counted_executeTransaction h hexecute hnodes
        (hc.mono hgrow.1.subset)
      rcases ih hnext hrest hexact' with ⟨hcounted, hcontinues'⟩
      rw [validTransactions_cons hdecode hexecute, noncesAfter_append]
      exact ⟨hcounted, hcontinues.append hcontinues'⟩

end Block

/-! ## Chains of blocks -/

theorem forward_executeChain (executions : List Execution) :
    Fallible.Respects (.comap (fun controller : Controller => controller.state.top)
      MerklePatriciaTrie.forward) (executeChain c eventProvider executions) := by
  induction executions with
  | nil => exact .pure _
  | cons execution rest ih =>
      refine Fallible.Respects.bind ?_ fun _ => ih
      refine (forward_executeAllCore execution.header execution.coreTxs).bind fun _ =>
        Fallible.Respects.bind ?_ fun _ => Fallible.Respects.get.bind fun _ => .pure _
      -- the new height is written to the meta store
      intro controller
      rcases updateStateInfo_cases execution.header _ _ controller with
        ⟨eventTxs, -, -, hupdate⟩ | ⟨e, hupdate⟩
      · rw [hupdate]
        exact MerklePatriciaTrie.forward.refl controller.state.top
      · rw [hupdate]
        exact MerklePatriciaTrie.forward.refl controller.state.top

/-- A chain that was executed, from its first block on. -/
theorem executeChain_cons {execution : Execution} {rest : List Execution}
    (h : executeChain c eventProvider (execution :: rest) controller = .ok () controller') :
    ∃ appState next, executeCoreTransactions c eventProvider execution.header execution.coreTxs
        controller = .ok appState next ∧
      execute c eventProvider controller execution = next ∧
      executeChain c eventProvider rest next = .ok () controller' := by
  unfold executeChain at h
  rcases Fallible.bind_cases
    (executeCoreTransactions c eventProvider execution.header execution.coreTxs) _ controller with
    ⟨appState, next, hexecute, hbind⟩ | ⟨e, next, -, hbind⟩
  · rw [hbind] at h
    refine ⟨appState, next, hexecute, ?_, h⟩
    unfold execute
    rw [hexecute]
    rfl
  · rw [hbind] at h
    cases h

/-- Each block is recorded under its height, and nothing else changes. -/
theorem recorded_executeChain {executions : List Execution}
    (h : executeChain c eventProvider executions controller = .ok () controller') :
    let hashes := controller.state.metaState.validTransactionHashes
    let height := controller.state.metaState.height
    (∀ k ≤ height, controller'.state.metaState.validTransactionHashes k = hashes k) ∧
      ∀ i, controller'.state.metaState.validTransactionHashes (height + 1 + i) =
        (((history c eventProvider executions controller)[i]?).map
          (List.map CoreTransaction.hash)).getD (hashes (height + 1 + i)) := by
  induction executions generalizing controller with
  | nil =>
      cases h
      exact ⟨fun _ _ => rfl, fun _ => rfl⟩
  | cons execution rest ih =>
      rcases executeChain_cons h with ⟨appState, next, hexecute, hnext, hrest⟩
      rcases executeCoreTransactions_iff.mp hexecute with
        ⟨validTxHashes, last, eventTxs, hloop, -, -, rfl, -⟩
      have hsettled := executeAllCore_settled hloop
      have hheight : last.state.metaState.height = controller.state.metaState.height := by
        have hsame := congrArg MetaState.height hsettled
        exact hsame
      have hhashes : last.state.metaState.validTransactionHashes =
          controller.state.metaState.validTransactionHashes := by
        have hsame := congrArg MetaState.validTransactionHashes hsettled
        exact hsame
      rcases ih hrest with ⟨hbefore, hafter⟩
      simp only [history, hnext]
      generalize history c eventProvider rest _ = recorded at hafter ⊢
      simp only [updated, MetaState.raised, hheight, hhashes] at hbefore hafter
      refine ⟨?_, ?_⟩
      · intro k hk
        rw [hbefore k (by omega), Function.update_of_ne (by omega)]
      · intro i
        cases i with
        | zero =>
            rw [Nat.add_zero, hbefore _ le_rfl, Function.update_self, validTxHashes_eq hloop]
            rfl
        | succ i =>
            -- a block of the rest, which starts one height above
            have hk : controller.state.metaState.height + 1 + (i + 1) =
                controller.state.metaState.height + 1 + 1 + i := by omega
            rw [hk, hafter i, Function.update_of_ne (by omega)]
            rfl

theorem counted_executeChain {executions : List Execution} (h : Counted c n controller.state)
    (hchain : executeChain c eventProvider executions controller = .ok () controller')
    (hexact : ChainRollsBack c eventProvider executions controller)
    (hc : NoCollision c controller'.state.saved) :
    Counted c (noncesAfter n (history c eventProvider executions controller).flatten)
        controller'.state ∧
      Continues n (history c eventProvider executions controller).flatten := by
  induction executions generalizing n controller with
  | nil =>
      cases hchain
      exact ⟨h, continues_nil⟩
  | cons execution rest ih =>
      rcases executeChain_cons hchain with ⟨appState, next, hexecute, hnext, hrest⟩
      have hgrow := @forward_executeChain c eventProvider rest next
      rw [hrest] at hgrow
      rcases hexact with ⟨hblock, hexact'⟩
      rw [hnext] at hexact'
      obtain ⟨validTxHashes, last, eventTxs, hloop, -, -, hupdated, -⟩ :=
        executeCoreTransactions_iff.mp hexecute
      have htop : next.state.top = last.state.top := by
        rw [hupdated]
        rfl
      -- saved nodes stay saved, so those of the first block do not collide either
      have hsaved : NoCollision c last.state.saved := by
        unfold State.saved
        rw [← htop]
        exact hc.mono hgrow.1.subset
      rcases counted_executeAllCore h hloop hblock hsaved with ⟨hcounted, hcontinues⟩
      rcases ih (hcounted.of_top htop) hrest hexact' with ⟨hcounted', hcontinues'⟩
      simp only [history, hnext, List.flatten_cons]
      rw [noncesAfter_append]
      exact ⟨hcounted', hcontinues.append hcontinues'⟩

end Blocks

/-- Nothing is recorded before the first block. -/
theorem connected_records (c : Crypto) (timestamp : Nat) (initialValidatorSet : ValidatorSet)
    (memcachedImpl : EasyMemcached) :
    let metaState := (connected c timestamp initialValidatorSet memcachedImpl).state.metaState
    metaState.height = 0 ∧ ∀ height, metaState.validTransactionHashes height = [] := by
  rcases MerklePatriciaTrie.ready_new c with ⟨trie, hready, -⟩
  have htop : State.onTop (MerklePatriciaTrie.ready c) (State.new c) =
      .ok () { State.new c with top := trie } := by
    simp only [State.onTop, State.new, hready]
  unfold connected
  rw [State.ready, Fallible.bind_ok htop]
  exact ⟨rfl, fun _ => rfl⟩

/-- In every history that starts with empty stores, the valid normal transactions of a signer have the
nonces 1, 2, 3 and so on, and the nonce of the account is their number. The history is what is
recorded as `validTransactionHashes`. -/
theorem no_replay (c : Crypto) (eventProvider : Option EventProvider) (timestamp : Nat)
    (initialValidatorSet : ValidatorSet) (memcachedImpl : EasyMemcached) (executions : List Execution)
    (controller : Controller)
    (h : executeChain c eventProvider executions
      (connected c timestamp initialValidatorSet memcachedImpl) = .ok () controller)
    (hexact : ChainRollsBack c eventProvider executions
      (connected c timestamp initialValidatorSet memcachedImpl))
    (hc : NoCollision c controller.state.saved) :
    let blocks := history c eventProvider executions
      (connected c timestamp initialValidatorSet memcachedImpl)
    (∀ height, controller.state.metaState.validTransactionHashes height =
      if height = 0 then [] else
        (blocks[height - 1]?.getD []).map CoreTransaction.hash) ∧
    ∀ signer, signer ≠ Address.zero →
      let nonces := noncesOf signer blocks.flatten
      nonces = List.range' 1 nonces.length ∧ nonces.Nodup ∧
        ∃ account, Fallible.outcome (State.getAccount signer controller.state) = .ok account ∧
          account.nonce = nonces.length := by
  rcases recorded_executeChain h with ⟨hbefore, hafter⟩
  obtain ⟨hcounted, hcontinues⟩ := counted_executeChain
    (counted_ready timestamp initialValidatorSet) h hexact hc
  rcases connected_records c timestamp initialValidatorSet memcachedImpl with ⟨hheight, hempty⟩
  simp only [hheight, hempty] at hbefore hafter
  refine ⟨?_, ?_⟩
  · intro height
    cases height with
    | zero => exact hbefore 0 le_rfl
    | succ height =>
        have hrecorded := hafter height
        -- block number `height` of the history was executed at `height + 1`
        rw [show 0 + 1 + height = height + 1 by omega] at hrecorded
        rw [hrecorded, if_neg (Nat.succ_ne_zero height), Nat.add_sub_cancel]
        cases (history c eventProvider executions
          (connected c timestamp initialValidatorSet memcachedImpl))[height]? with
        | none => rfl
        | some block => rfl
  · intro signer hsigner
    -- the nonces go on from zero, one by one, so none comes twice
    have hnonces := hcontinues signer hsigner
    rw [Nat.zero_add] at hnonces
    refine ⟨hnonces, ?_, ?_⟩
    · rw [hnonces]
      exact List.nodup_range'
    · rcases hcounted.getAccount hsigner with ⟨account, haccount, hnonce⟩
      exact ⟨account, haccount, hnonce.trans (Nat.zero_add _)⟩

/-! ### A transaction that is sent again -/

/-- Reading an account changes nothing. -/
theorem final_getAccount (address : Address) (state : State) :
    Fallible.final (State.getAccount address state) = state := by
  have hread : Fallible.Respects (.constant id)
      (State.onTop (MerklePatriciaTrie.get address.buffer)) := by
    intro state
    have htop := @MerklePatriciaTrie.respects_get (.constant id) address.buffer state.top
    show Fallible.final _ = state
    rw [final_onTop]
    exact congrArg (fun top => { state with top }) htop
  refine hread.bind (fun value => ?_) state
  cases State.accountOf value with
  | ok account => exact .pure account
  | error e => exact .throw e

/-- A transaction with another nonce than the next one is refused, and nothing changes. -/
theorem action_of_wrong_nonce {c : Crypto} {header : BlockHeader} {memcached : EasyMemcached}
    {handling : Handling} {hash : Hash} {sender : Address} {nonce : Nat} {state : State}
    {account : Account} (haccount : State.getAccount sender state = .ok account state)
    (hnonce : nonce ≠ account.nonce + 1) :
    action c header memcached handling (.normal hash sender nonce) state =
      .error ⟨"non continuous nonce"⟩ state := by
  have hnonce' : nonce ≠ account.incrementNonce.nonce := hnonce
  rw [action, Fallible.bind_ok haccount]
  simp only [if_pos hnonce']
  rfl

theorem RollsBack.cons {c : Crypto} {header : BlockHeader} {coreTx : UniqysKit.Transaction}
    {handling : Handling} {rest : List (UniqysKit.Transaction × Handling)} {tx : CoreTransaction}
    {valid : Bool} {controller next : Controller} (hdecode : CoreTransaction.decode c coreTx = .ok tx)
    (hexecute : executeTransaction c header tx handling controller = .ok valid next)
    (hnodes : valid = false → MerklePatriciaTrie.Retained controller.state.top (Fallible.final
      (action c header controller.memcachedImpl handling tx controller.state)).top)
    (hrest : RollsBack c header rest next) :
    RollsBack c header ((coreTx, handling) :: rest) controller := by
  intro tx' valid' next' hdecode' hexecute'
  rw [hdecode] at hdecode'
  cases hdecode'
  rw [hexecute] at hexecute'
  cases hexecute'
  exact ⟨hnodes, hrest⟩

/-- The application sets a key and answers. -/
def answered : Handling := ⟨[.set [107] 0 [1]], .ok ⟨200, "OK", [], []⟩⟩

/-- A block with the same transaction twice. -/
def repeatingBlock : Execution :=
  ⟨blankHeader, [(normalTransaction, answered), (normalTransaction, answered)]⟩

def repeatedSender : Address :=
  match CoreTransaction.decode .transparent normalTransaction with
  | .ok (.normal _ sender _) => sender
  | _ => Address.zero

def repeatingController : Controller := connected .transparent 0 ⟨[]⟩ ⟨false, .readOnly⟩

/-- The controller between the two transactions. -/
def afterFirst : Controller :=
  Fallible.final (executeTransaction .transparent blankHeader
    (.normal (normalTransaction.hash .transparent) repeatedSender 1) answered repeatingController)

theorem decode_normalTransaction :
    CoreTransaction.decode .transparent normalTransaction =
      .ok (.normal (normalTransaction.hash .transparent) repeatedSender 1) := by
  decide +kernel

theorem chainRollsBack_repeatingBlock :
    ChainRollsBack .transparent none [repeatingBlock] repeatingController := by
  have hfirst : executeTransaction .transparent blankHeader
      (.normal (normalTransaction.hash .transparent) repeatedSender 1) answered repeatingController =
        .ok true afterFirst := ok_of_value (by decide +kernel)
  have hsecond : executeTransaction .transparent blankHeader
      (.normal (normalTransaction.hash .transparent) repeatedSender 1) answered afterFirst =
        .ok false _ := ok_of_value (by decide +kernel)
  have haccount := ok_of_value (r := State.getAccount repeatedSender afterFirst.state) (a := ⟨1, 0⟩)
    (by decide +kernel)
  rw [final_getAccount] at haccount
  refine ⟨.cons decode_normalTransaction hfirst nofun ?_, trivial⟩
  refine .cons decode_normalTransaction hsecond (fun _ => ?_) trivial
  rw [action_of_wrong_nonce haccount (by decide)]
  exact fun _ _ => rfl

/-- The second of two equal transactions fails. -/
theorem no_replay_repeated :
    ∃ controller account,
      executeChain .transparent none [repeatingBlock] repeatingController = .ok () controller ∧
      Fallible.outcome (State.getAccount repeatedSender controller.state) = .ok account ∧
      account.nonce = (noncesOf repeatedSender
        (history .transparent none [repeatingBlock] repeatingController).flatten).length := by
  have h := ok_of_value (r := executeChain .transparent none [repeatingBlock] repeatingController)
    (a := ()) (by decide +kernel)
  obtain ⟨-, hnonces⟩ := no_replay .transparent none 0 ⟨[]⟩ ⟨false, .readOnly⟩ [repeatingBlock] _ h
    chainRollsBack_repeatingBlock (by decide +kernel)
  rcases hnonces repeatedSender (by decide +kernel) with ⟨-, -, account, haccount, hnonce⟩
  exact ⟨_, account, h, haccount, hnonce⟩

end Controller

end EasyFramework
end UniqysKit
