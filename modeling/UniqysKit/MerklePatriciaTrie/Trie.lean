import UniqysKit.MerklePatriciaTrie.TrieStore

/-!
# The trie

`MerklePatriciaTrie`: the root hash over a `TrieStore`, and its operations.
-/

namespace UniqysKit

structure MerklePatriciaTrie where
  store : TrieStore
  rootHash : Hash
  isReady : Bool

namespace MerklePatriciaTrie

variable (c : Crypto)

/-- A trie over a store that nothing was written to. -/
def new : MerklePatriciaTrie := ⟨TrieStore.empty, Node.null.hash c, false⟩

/-- A step on the store, as a step on the trie that holds it. -/
def onStore {α : Type} (action : Action TrieStore α) : Action MerklePatriciaTrie α := fun trie =>
  match action trie.store with
  | .ok a store => .ok a { trie with store }
  | .error e store => .error e { trie with store }

/-- A reading step, which changes nothing. -/
def reading {α : Type} (f : TrieStore → Result α) : Action MerklePatriciaTrie α := fun trie =>
  match f trie.store with
  | .ok a => .ok a trie
  | .error e => .error e trie

def checkReady : Action MerklePatriciaTrie Unit := do
  if !(← MonadState.get).isReady then throw ⟨"trie is not ready"⟩

def ready : Action MerklePatriciaTrie Unit := do
  if (← MonadState.get).isReady then return
  match ← reading TrieStore.getRoot with
  | some rootHash => modify fun trie => { trie with rootHash }
  | none =>
      onStore (TrieStore.set (Node.null.hash c) Node.null)
      onStore (TrieStore.setRoot (Node.null.hash c))
      modify fun trie => { trie with rootHash := Node.null.hash c }
  modify fun trie => { trie with isReady := true }

/-- The node behind the root hash. -/
def root : Action MerklePatriciaTrie Node := do
  checkReady
  let rootHash := (← MonadState.get).rootHash
  reading fun store => store.get rootHash

/-- The list that `entries` yields; `none` when the bound on the walk was too small. -/
def entries (fuel : Nat) : Action MerklePatriciaTrie (Option (List (Bytes × Bytes))) := do
  let root ← root
  let contents ← reading fun store => root.contents store fuel
  return contents.map fun list => list.map fun content => (content.key, content.value)

def get (key : Bytes) : Action MerklePatriciaTrie (Option Bytes) := do
  let root ← root
  let content ← reading fun store => root.get store (Key.bufferToKey key)
  return content.map Content.value

def save (root : Node) : Action MerklePatriciaTrie Unit := do
  let normalized ← reading fun store => root.normalize store
  let newRoot ←
    match normalized with
    | some node => onStore (node.save c)
    | none => pure Node.null
  onStore (TrieStore.setRoot (newRoot.hash c))
  modify fun trie => { trie with rootHash := newRoot.hash c }

def set (content : Content) : Action MerklePatriciaTrie Unit := do
  let root ← root
  save c (← reading fun store => root.set store (Key.bufferToKey content.key) content)

def delete (key : Bytes) : Action MerklePatriciaTrie Unit := do
  let root ← root
  save c (← reading fun store => root.delete store (Key.bufferToKey key))

def clear (keyPrefix : Option Bytes) : Action MerklePatriciaTrie Unit := do
  let root ← root
  let key := (keyPrefix.map Key.bufferToKey).getD []
  save c (← reading fun store => root.clear store key)

def rollback (root : Hash) : Action MerklePatriciaTrie Unit := do
  checkReady
  modify fun trie => { trie with rootHash := root }

end MerklePatriciaTrie

end UniqysKit
