import Mathlib.Data.Set.Function
import UniqysKit.EasyFramework.MemcachedProtocol
import UniqysKit.EasyFramework.TransactionParts
import UniqysKit.Library.Program

/-!
# Calls as programs over the trie

What a call asks of the trie, one access at a time, and what it replies.  `matches_run` says that
the programs are the calls of `Calls`.  They can also run over the contents of the trie, a map from
keys to values, and `simulates_exact` says that this comes to the same as long as saved nodes do not
collide.  On maps it is easy to say which keys a call reads and writes.
-/

namespace UniqysKit
namespace EasyFramework

open Library

/-! ## Accesses -/

/-- An access to the trie. -/
inductive Access
  | get (key : Bytes)
  | apply (op : Operation)
  deriving DecidableEq

namespace Access

def Res : Access → Type
  | get _ => Option Bytes
  | apply _ => Unit

def act (c : Crypto) : (access : Access) → Action MerklePatriciaTrie access.Res
  | get key => MerklePatriciaTrie.get key
  | apply op => op.apply c

end Access

/-- Code that accesses nothing but the trie. -/
abbrev Code := Program Error Access.Res

namespace Code

def get (key : Bytes) : Code (Option Bytes) := .perform (Access.get key)

def apply (op : Operation) : Code Unit := .perform (Access.apply op)

/-- The code that a trie runs. -/
abbrev onTrie {α : Type} (c : Crypto) (code : Code α) : Action MerklePatriciaTrie α :=
  code.run (Access.act c)

end Code

/-- A value that `gets` yields; `get` yields no token. -/
structure FoundValue where
  key : Bytes
  flags : Int
  data : Bytes
  cas : Option Nat
  deriving DecidableEq

/-- What a call replies, if it does not throw. -/
inductive Reply
  | response (response : Memcached.Response)
  | number (count : Number)
  /-- The values that came before the end, and the error that was the end, if it was one. -/
  | values (values : List FoundValue) (failure : Option Error)
  | account (nonce : Nat) (balance : ℚ)
  | nonce (nonce : Nat)
  | balance (balance : ℚ)
  | success
  deriving DecidableEq

/-! ## The memcached-compatible server -/

namespace EasyMemcached

variable (memcached : EasyMemcached)

def checkWritableCode : Code Unit :=
  if memcached.mode = .readOnly then .done (.error ⟨"current mode is read only"⟩) else pure ()

def getItemCode (key : Bytes) : Code (Option Item) := do
  match ← Code.get (State.appKey key) with
  | some v => do return some (← .done (Item.deserialize memcached.useCas v))
  | none => return none

def setItemCode (key : Bytes) (item : Item) : Code Unit := do
  let value ← .done (item.serialize memcached.useCas)
  let content ← .done (State.content (State.appKey key) value)
  Code.apply (.set content)

def setCode (key : Bytes) (flags : Int) (data : Bytes) : Code Reply := do
  memcached.checkWritableCode
  let casUniq ←
    if memcached.useCas then do
      let item ← memcached.getItemCode key
      pure ((item.map Item.casUniq).getD 0)
    else pure 0
  memcached.setItemCode key ⟨flags, casUniq + 1, data⟩
  return .response .stored

/-- `getAndAct` with the item to write, if any, and the reply. -/
def getAndActCode (key : Bytes) (action : Option Item → Option Item × Reply) : Code Reply := do
  memcached.checkWritableCode
  let (written, reply) := action (← memcached.getItemCode key)
  match written with
  | some item => memcached.setItemCode key item
  | none => pure ()
  return reply

def getsCode : List Bytes → Code (List (Bytes × Item) × Option Error)
  | [] => return ([], none)
  | key :: keys => do
      match ← Code.get (State.appKey key) with
      | none => getsCode keys
      | some v =>
          match Item.deserialize memcached.useCas v with
          | .error e => return ([], some e)
          | .ok item => do
              let (items, failure) ← getsCode keys
              return ((key, item) :: items, failure)

def retrieveCode (keys : List Bytes) (withCas : Bool) : Code Reply := do
  let (items, failure) ← memcached.getsCode keys
  return .values (items.map fun (key, item) =>
    ⟨key, item.flags, item.data, if withCas then some item.casUniq else none⟩) failure

def deleteCode (key : Bytes) : Code Reply := do
  memcached.checkWritableCode
  match ← memcached.getItemCode key with
  | some _ => do
      Code.apply (.delete (State.appKey key))
      return .response .deleted
  | none => return .response .notFound

def flushCode : Code Reply := do
  memcached.checkWritableCode
  Code.apply (.clear (some Address.zero.buffer))
  return .response .ok

end EasyMemcached

/-! ## The inner API -/

namespace InnerApi

def assert400Code {α : Type} : Option α → Code α
  | some a => pure a
  | none => .done (.error ⟨"Bad Request"⟩)

def getAccountCode (address : Address) : Code Account := do
  .done (State.accountOf (← Code.get address.buffer))

def setAccountCode (address : Address) (account : Account) : Code Unit := do
  let value ← .done account.serialize
  let content ← .done (State.content address.buffer value)
  Code.apply (.set content)

/-- The body of the response to a request for an account. -/
def accountReply (account : Account) : AccountPart → Reply
  | .whole => .account account.nonce account.balance
  | .nonce => .nonce account.nonce
  | .balance => .balance account.balance

def readAccountCode (address : Option Address) (part : AccountPart) : Code Reply := do
  let address ← assert400Code address
  let account ← getAccountCode address
  return accountReply account part

def putBalanceCode (address : Option Address) (balance : Option ℚ) : Code Reply := do
  let address ← assert400Code address
  let balance ← assert400Code (truthyNumber balance)
  let account ← getAccountCode address
  setAccountCode address (account.setBalance balance)
  return .balance balance

def transferCode (fromAddress toAddress : Option Address) (value : Option ℚ) : Code Reply := do
  let fromAddress ← assert400Code fromAddress
  let toAddress ← assert400Code toAddress
  let value ← assert400Code (truthyNumber value)
  let fromAccount ← getAccountCode fromAddress
  setAccountCode fromAddress (← .done (fromAccount.decreaseBalance value))
  let toAccount ← getAccountCode toAddress
  setAccountCode toAddress (toAccount.increaseBalance value)
  return .success

/-- `PUT /validators`. What it writes is not in the trie. -/
def putValidatorsCode (body : List (Option Address × PowerValue)) : Code Reply := do
  let newValidators ← assert400Code (parseValidators body)
  let _ ← .done (State.writtenValidatorSet newValidators)
  return .success

end InnerApi

/-! ## Calls -/

namespace Call

/-- What the call asks of the trie. -/
def code (memcached : EasyMemcached) : Call → Code Reply
  | other => return .success
  | retrieve keys withCas => memcached.retrieveCode keys withCas
  | getAccount address part => InnerApi.readAccountCode address part
  | set key flags data => memcached.setCode key flags data
  | add key flags data =>
      memcached.getAndActCode key fun
        | none => (some ⟨flags, 1, data⟩, .response .stored)
        | some _ => (none, .response .notStored)
  | replace key flags data =>
      memcached.getAndActCode key fun
        | some item => (some ⟨flags, item.casUniq + 1, data⟩, .response .stored)
        | none => (none, .response .notStored)
  | append key data =>
      memcached.getAndActCode key fun
        | some item =>
            (some ⟨item.flags, item.casUniq + 1, item.data ++ data⟩, .response .stored)
        | none => (none, .response .notStored)
  | prepend key data =>
      memcached.getAndActCode key fun
        | some item =>
            (some ⟨item.flags, item.casUniq + 1, data ++ item.data⟩, .response .stored)
        | none => (none, .response .notStored)
  | cas key flags casUniq data =>
      memcached.getAndActCode key fun
        | some item =>
            if item.casUniq = casUniq then
              (some ⟨flags, item.casUniq + 1, data⟩, .response .stored)
            else (none, .response .exists)
        | none => (none, .response .notFound)
  | delete key => memcached.deleteCode key
  | incr key value =>
      memcached.getAndActCode key fun
        | some item =>
            let newCount :=
              ((parseInt item.data).add value).min (.integer EasyMemcached.maxSafeInteger)
            (some ⟨item.flags, item.casUniq + 1, numberToText newCount⟩, .number newCount)
        | none => (none, .response .notFound)
  | decr key value =>
      memcached.getAndActCode key fun
        | some item =>
            let newCount := ((parseInt item.data).sub value).max (.integer 0)
            (some ⟨item.flags, item.casUniq + 1, numberToText newCount⟩, .number newCount)
        | none => (none, .response .notFound)
  | flush => memcached.flushCode
  | putBalance address balance => InnerApi.putBalanceCode address balance
  | transfer fromAddress toAddress value => InnerApi.transferCode fromAddress toAddress value
  | putValidators body => InnerApi.putValidatorsCode body

end Call

/-! ## The programs are the calls -/

/-- The action does with the trie what the code does, and returns or throws the same. The results of
transactions it leaves alone. -/
abbrev Matches {α : Type} (c : Crypto) (action : Action State α) (code : Code α) : Prop :=
  ∀ result, Fallible.Simulates (fun _ => True)
    (fun state trie => state.top = trie ∧ state.result = result) action (code.onTrie c)

section Matches

variable {c : Crypto} {α β : Type}

theorem Matches.bind {x : Action State α} {p : Code α} {f : α → Action State β} {g : α → Code β}
    (hx : Matches c x p) (hf : ∀ a, Matches c (f a) (g a)) : Matches c (x >>= f) (p >>= g) := by
  intro result
  unfold Code.onTrie
  rw [Program.run_bind]
  exact Fallible.Simulates.bind (hx result) fun a => hf a result

theorem matches_pure (a : α) : Matches c (pure a) (pure a) := fun _ => .pure a

theorem matches_throw (e : Error) : Matches c (throw e : Action State α) (.done (.error e)) :=
  fun _ => .throw e

theorem matches_fromResult (r : Result α) : Matches c (Action.fromResult r) (.done r) := by
  cases r with
  | ok a => exact matches_pure a
  | error e => exact matches_throw e

/-- An access, made on the trie of a state. -/
theorem matches_perform (access : Access) :
    Matches c (State.onTop (access.act c)) (Program.perform access) := by
  intro result
  unfold Code.onTrie
  rw [Program.run_perform]
  refine ⟨fun _ _ => trivial, ?_⟩
  rintro state trie ⟨rfl, rfl⟩ -
  unfold State.onTop
  cases access.act c state.top with
  | ok a top => exact ⟨rfl, rfl, rfl⟩
  | error e top => exact ⟨rfl, rfl, rfl⟩

/-- What a call replies is not part of `Call.run`. -/
def Code.forget (code : Code Reply) : Code Unit := do
  let _ ← code
  return

/-- A call that ends with a reply. -/
theorem Matches.reply {x : Action State Unit} {p : Code Unit} (hx : Matches c x p) (reply : Reply) :
    Matches c x (Code.forget do
      p
      return reply) := by
  intro result
  have hsame := hx result
  unfold Code.onTrie Code.forget at *
  rw [Program.run_bind, Program.run_bind, bind_assoc]
  simpa using hsame

/-- The reply may depend on what came before. -/
theorem Matches.bind_forget {x : Action State α} {p : Code α} {f : α → Action State Unit}
    {g : α → Code Reply} (hx : Matches c x p) (hf : ∀ a, Matches c (f a) (g a).forget) :
    Matches c (x >>= f) (p >>= g).forget := by
  intro result
  have h := hx.bind hf result
  unfold Code.onTrie Code.forget at *
  simp only [Program.run_bind, bind_assoc] at h ⊢
  exact h

theorem matches_assert400 (value : Option α) :
    Matches c (InnerApi.assert400 value) (InnerApi.assert400Code value) := by
  cases value with
  | some a => exact matches_pure a
  | none => exact matches_throw _

theorem matches_getAccount (address : Address) :
    Matches c (State.getAccount address) (InnerApi.getAccountCode address) :=
  (matches_perform (.get address.buffer)).bind fun _ => matches_fromResult _

/-- Setting what was put together from a key and a value. -/
theorem matches_setContent (key value : Bytes) :
    Matches c (do
      let content ← Action.fromResult (State.content key value)
      State.onTop (MerklePatriciaTrie.set c content)) (do
      let content ← .done (State.content key value)
      Code.apply (.set content)) :=
  (matches_fromResult _).bind fun content => matches_perform (.apply (.set content))

theorem matches_setAccount (address : Address) (account : Account) :
    Matches c (State.setAccount c address account) (InnerApi.setAccountCode address account) :=
  (matches_fromResult _).bind fun value => matches_setContent address.buffer value

end Matches

namespace EasyMemcached

variable {c : Crypto} (memcached : EasyMemcached)

theorem matches_checkWritable : Matches c memcached.checkWritable memcached.checkWritableCode := by
  unfold checkWritable checkWritableCode
  split
  · exact matches_throw _
  · exact matches_pure _

theorem matches_getItem (key : Bytes) : Matches c (memcached.getItem key) (memcached.getItemCode key) := by
  refine (matches_perform (.get (State.appKey key))).bind ?_
  intro value
  cases value with
  | some v => exact (matches_fromResult _).bind fun item => matches_pure _
  | none => exact matches_pure _

theorem matches_setItem (key : Bytes) (item : Item) :
    Matches c (memcached.setItem c key item) (memcached.setItemCode key item) :=
  (matches_fromResult _).bind fun value => matches_setContent (State.appKey key) value

theorem matches_gets (keys : List Bytes) :
    Matches c (memcached.gets keys) (memcached.getsCode keys) := by
  induction keys with
  | nil => exact matches_pure _
  | cons key keys ih =>
      refine (matches_perform (.get (State.appKey key))).bind ?_
      intro value
      cases value with
      | none => exact ih
      | some v =>
          simp only
          cases Item.deserialize memcached.useCas v with
          | error e => exact matches_pure _
          | ok item => exact ih.bind fun _ => matches_pure _

theorem matches_retrieve (keys : List Bytes) (withCas : Bool) :
    Matches c (do let _ ← memcached.gets keys; return) (memcached.retrieveCode keys withCas).forget :=
  (memcached.matches_gets keys).bind_forget fun _ => matches_pure ()

theorem matches_set (key : Bytes) (flags : Int) (data : Bytes) :
    Matches c (memcached.set c key flags data) (memcached.setCode key flags data).forget := by
  refine memcached.matches_checkWritable.bind_forget fun _ => ?_
  split
  · exact (memcached.matches_getItem key).bind_forget fun item =>
      (matches_pure _).bind_forget fun casUniq => (memcached.matches_setItem key _).reply _
  · exact (matches_pure 0).bind_forget fun casUniq => (memcached.matches_setItem key _).reply _

/-- The items that the action writes are those of the call. -/
theorem matches_getAndAct (key : Bytes) {action : Option Item → Option Item}
    {actionCode : Option Item → Option Item × Reply} (h : ∀ item, action item = (actionCode item).1) :
    Matches c (memcached.getAndAct c key action) (memcached.getAndActCode key actionCode).forget := by
  refine memcached.matches_checkWritable.bind_forget fun _ => ?_
  refine (memcached.matches_getItem key).bind_forget ?_
  intro item
  rw [h]
  rcases actionCode item with ⟨written, reply⟩
  cases written with
  | some written => exact (memcached.matches_setItem key written).reply reply
  | none => exact (matches_pure ()).reply reply

theorem matches_delete (key : Bytes) :
    Matches c (memcached.delete c key) (memcached.deleteCode key).forget := by
  refine memcached.matches_checkWritable.bind_forget fun _ => ?_
  refine (memcached.matches_getItem key).bind_forget ?_
  intro item
  cases item with
  | some item => exact (matches_perform (.apply (.delete (State.appKey key)))).reply _
  | none => exact (matches_pure ()).reply _

theorem matches_flush : Matches c (memcached.flush c) memcached.flushCode.forget := by
  refine memcached.matches_checkWritable.bind_forget fun _ => ?_
  exact (matches_perform (.apply (.clear (some Address.zero.buffer)))).reply _

end EasyMemcached

namespace InnerApi

variable {c : Crypto}

theorem matches_readAccount (address : Option Address) (part : AccountPart) :
    Matches c (do let _ ← readAccount address; return) (readAccountCode address part).forget := by
  unfold readAccount
  rw [bind_assoc]
  exact (matches_assert400 address).bind_forget fun address =>
    (matches_getAccount address).bind_forget fun _ => matches_pure ()

theorem matches_putBalance (address : Option Address) (balance : Option ℚ) :
    Matches c (putBalance c address balance) (putBalanceCode address balance).forget :=
  (matches_assert400 address).bind_forget fun address => (matches_assert400 _).bind_forget fun _ =>
    (matches_getAccount address).bind_forget fun _ => (matches_setAccount address _).reply _

theorem matches_transfer (fromAddress toAddress : Option Address) (value : Option ℚ) :
    Matches c (transfer c fromAddress toAddress value)
      (transferCode fromAddress toAddress value).forget :=
  (matches_assert400 fromAddress).bind_forget fun fromAddress =>
    (matches_assert400 toAddress).bind_forget fun toAddress =>
      (matches_assert400 _).bind_forget fun _ =>
        (matches_getAccount fromAddress).bind_forget fun _ =>
          (matches_fromResult _).bind_forget fun _ =>
            (matches_setAccount fromAddress _).bind_forget fun _ =>
              (matches_getAccount toAddress).bind_forget fun _ =>
                (matches_setAccount toAddress _).reply _

theorem matches_putValidators (body : List (Option Address × PowerValue)) :
    Matches c (putValidators body) (putValidatorsCode body).forget := by
  refine (matches_assert400 _).bind_forget fun newValidators => ?_
  refine (matches_fromResult (State.writtenValidatorSet newValidators)).bind_forget fun _ => ?_
  refine fun _ => ⟨fun _ _ => trivial, ?_⟩
  rintro state trie ⟨rfl, rfl⟩ -
  exact ⟨rfl, rfl, rfl⟩

end InnerApi

namespace Call

variable {c : Crypto}

/-- A call does with the trie what its code does. -/
theorem matches_run (memcached : EasyMemcached) (call : Call) :
    Matches c (call.run c memcached) (call.code memcached).forget := by
  cases call with
  | other => exact matches_pure ()
  | retrieve keys withCas => exact memcached.matches_retrieve keys withCas
  | getAccount address part => exact InnerApi.matches_readAccount address part
  | set key flags data => exact memcached.matches_set key flags data
  | add key flags data => exact memcached.matches_getAndAct key (by rintro (_ | item) <;> rfl)
  | replace key flags data => exact memcached.matches_getAndAct key (by rintro (_ | item) <;> rfl)
  | append key data => exact memcached.matches_getAndAct key (by rintro (_ | item) <;> rfl)
  | prepend key data => exact memcached.matches_getAndAct key (by rintro (_ | item) <;> rfl)
  | cas key flags casUniq data =>
      refine memcached.matches_getAndAct key ?_
      rintro (_ | item)
      · rfl
      · simp only
        split
        · rfl
        · rfl
  | delete key => exact memcached.matches_delete key
  | incr key value => exact memcached.matches_getAndAct key (by rintro (_ | item) <;> rfl)
  | decr key value => exact memcached.matches_getAndAct key (by rintro (_ | item) <;> rfl)
  | flush => exact memcached.matches_flush
  | putBalance address balance => exact InnerApi.matches_putBalance address balance
  | transfer fromAddress toAddress value =>
      exact InnerApi.matches_transfer fromAddress toAddress value
  | putValidators body => exact InnerApi.matches_putValidators body

/-- The trie after a call was answered. -/
theorem top_serve (memcached : EasyMemcached) (call : Call) (state : State) :
    (call.serve c memcached state).top =
      Fallible.final ((call.code memcached).onTrie c state.top) := by
  have hsame := ((matches_run (c := c) memcached call _).same state state.top ⟨rfl, rfl⟩ trivial).2.1
  have hforget : Fallible.final ((call.code memcached).forget.onTrie c state.top) =
      Fallible.final ((call.code memcached).onTrie c state.top) := by
    unfold Code.forget Code.onTrie
    rw [Program.run_bind]
    exact Fallible.final_bind_pure _ _ _
  exact hsame.trans hforget

/-- The results of transactions are not written by calls. -/
theorem result_serve (memcached : EasyMemcached) (call : Call) (state : State) :
    (call.serve c memcached state).result = state.result :=
  ((matches_run (c := c) memcached call _).same state state.top ⟨rfl, rfl⟩ trivial).2.2

end Call

/-! ## Transactions -/

/-- What comes before the request of a normal transaction. -/
def prepareCode (sender : Address) (nonce : Nat) : Code Unit := do
  let next := (← InnerApi.getAccountCode sender).incrementNonce
  if nonce ≠ next.nonce then .done (.error ⟨"non continuous nonce"⟩)
  InnerApi.setAccountCode sender next

theorem matches_prepare (c : Crypto) (hash : Hash) (sender : Address) (nonce : Nat) :
    Matches c (Controller.prepare c (.normal hash sender nonce)) (prepareCode sender nonce) := by
  refine (matches_getAccount sender).bind ?_
  intro account
  simp only
  split
  · exact (matches_throw _).bind fun _ => matches_setAccount sender _
  · exact matches_setAccount sender _

/-- What is done with a response leaves the trie alone. -/
theorem Controller.top_finish (header : BlockHeader) (res : HttpResponse) (tx : CoreTransaction) :
    Fallible.Respects (.constant State.top) (Controller.finish header res tx) := by
  have hcheck : Fallible.Respects (.constant State.top) (Controller.checkStatus res) := by
    unfold Controller.checkStatus
    split
    · exact .throw _
    · exact .pure _
  cases tx with
  | normal hash sender nonce =>
      have hset : Fallible.Respects (.constant State.top)
          (State.setResult hash ⟨header.height, res⟩) := by
        intro state
        unfold State.setResult
        cases TransactionResult.serialize ⟨header.height, res⟩ with
        | ok bytes => rfl
        | error e => rfl
      exact hset.bind fun _ => hcheck
  | event hash nonce => exact hcheck

end EasyFramework
end UniqysKit
