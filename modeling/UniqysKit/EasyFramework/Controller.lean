import UniqysKit.EasyFramework.Calls

/-!
# Executing transactions

`Controller.executeTransactions`.  A transaction is an account or nonce update, then a request to
the application, which may call back in any way before it answers or the connection breaks.  When
anything throws, the catch branch sets the root of the trie back and the transaction counts as
failed.

The catch branch undoes less than the calls can do: the next validator set is in the meta store, and
the nodes of the old root may have been overwritten in the trie store.
-/

namespace UniqysKit
namespace EasyFramework

open Library

/-- A core transaction with what `deserialize` makes of its data. -/
inductive CoreTransaction
  | normal (hash : Hash) (sender : Address) (nonce : Nat)
  | event (hash : Hash) (nonce : Nat)
  deriving DecidableEq

namespace CoreTransaction

def hash : CoreTransaction → Hash
  | normal hash _ _ => hash
  | event hash _ => hash

end CoreTransaction

/-- What the application does with a request: the calls that are answered until the request ends, and
then a response, or an error if the connection breaks or the response cannot be packed. -/
structure Handling where
  calls : List Call
  response : Except Error HttpResponse

structure Controller where
  state : State
  memcachedImpl : EasyMemcached

namespace Controller

open State

variable (c : Crypto)

/-- Sending the request and waiting for the packed response, with writing enabled. -/
def handle (memcached : EasyMemcached) (handling : Handling) : Action State HttpResponse := do
  modify (Call.serveAll c { memcached with mode := .readWrite } handling.calls)
  match handling.response with
  | .ok res => return res
  | .error e => throw e

def checkStatus (res : HttpResponse) : Action State Unit := do
  if 400 ≤ res.status ∧ res.status < 600 then throw ⟨res.message⟩

/-- The body of the `try` of a transaction. -/
def action (header : BlockHeader) (memcached : EasyMemcached) (handling : Handling) :
    CoreTransaction → Action State Unit
  | .normal hash sender nonce => do
      let next := (← getAccount sender).incrementNonce
      if nonce ≠ next.nonce then throw ⟨"non continuous nonce"⟩
      setAccount c sender next
      let res ← handle c memcached handling
      setResult hash ⟨header.height, res⟩
      checkStatus res
  | .event _ nonce => do
      let nextNonce := (← get).metaState.eventNonce + 1
      if nonce ≠ nextNonce then throw ⟨"non continuous nonce"⟩
      incrementEventNonce
      let res ← handle c memcached handling
      checkStatus res

/-- One transaction: whether it is valid. In the end the memcached server only reads again. -/
def executeTransaction (header : BlockHeader) (tx : CoreTransaction) (handling : Handling) :
    Action Controller Bool := fun controller =>
  let root := controller.state.top.rootHash
  let memcachedImpl := { controller.memcachedImpl with mode := .readOnly }
  match action c header controller.memcachedImpl handling tx controller.state with
  | .ok _ state => .ok true ⟨state, memcachedImpl⟩
  | .error _ state =>
      match onTop (MerklePatriciaTrie.rollback root) state with
      | .ok _ state => .ok false ⟨state, memcachedImpl⟩
      | .error e state => .error e ⟨state, memcachedImpl⟩

end Controller

end EasyFramework
end UniqysKit
