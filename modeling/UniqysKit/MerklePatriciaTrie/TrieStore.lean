import UniqysKit.Library.Fallible
import UniqysKit.MerklePatriciaTrie.Node

/-!
# The node store and the operations on nodes

`TrieStore` keeps serialized nodes under their hash, and the root hash under a key of its own.  The
operations of `Node` read it through `NodeRef.dereference`; only `save` writes.

`saved` lists every node that was ever given to `set`.  The program has no such list: it is there to
say which nodes a statement about hash collisions speaks of, and no operation reads it.
-/

namespace UniqysKit

structure TrieStore where
  store : Bytes → Option Bytes
  saved : List Node

namespace TrieStore

def empty : TrieStore := ⟨fun _ => none, []⟩

/-- `Key.root`, the bytes of "root". -/
def rootKey : Bytes := [114, 111, 111, 116]

/-- `Key.node`: only the first byte of "node:" is written before the hash. -/
def nodeKey (hash : Hash) : Bytes := 110 :: hash.buffer

def write (st : TrieStore) (key value : Bytes) : TrieStore :=
  { st with store := Function.update st.store key (some value) }

def get (st : TrieStore) (hash : Hash) : Result Node :=
  match st.store (nodeKey hash) with
  | some v => do
      let (node, _) ← Node.deserialize v
      return node
  | none => .error ⟨"not found"⟩

/-- The store after the bytes of a node were written under its hash. -/
def put (st : TrieStore) (hash : Hash) (node : Node) (bytes : Bytes) : TrieStore :=
  { st.write (nodeKey hash) bytes with saved := st.saved ++ [node] }

def set (hash : Hash) (node : Node) : Action TrieStore Unit := fun st =>
  match node.serialize with
  | .ok bytes => .ok () (st.put hash node bytes)
  | .error e => .error e st

def getRoot (st : TrieStore) : Result (Option Hash) :=
  match st.store rootKey with
  | some v => do
      let (hash, _) ← Hash.deserialize v
      return some hash
  | none => .ok none

def setRoot (hash : Hash) : Action TrieStore Unit := fun st =>
  .ok () (st.write rootKey hash.serialize)

theorem nodeKey_injective : Function.Injective nodeKey := by
  intro h h' he
  exact Hash.ext (List.cons.inj he).2

theorem nodeKey_ne_rootKey (hash : Hash) : nodeKey hash ≠ rootKey := by
  intro h
  have := congrArg List.length h
  simp [nodeKey, rootKey, hash.size] at this

theorem get_put {st : TrieStore} {node : Node} {bytes : Bytes} (h : node.serialize = .ok bytes)
    (hash hash' : Hash) :
    (st.put hash node bytes).get hash' = if hash' = hash then .ok node else st.get hash' := by
  by_cases he : hash' = hash
  · subst he
    have hread := Node.deserialize_append h []
    rw [List.append_nil] at hread
    simp [put, get, write, hread]
  · have hkey : nodeKey hash' ≠ nodeKey hash := fun hk => he (nodeKey_injective hk)
    simp [put, get, write, he, hkey]

end TrieStore

/-- `Promise.all` over the sixteen children, taken in their order. -/
def promiseAll {m : Type → Type} [Monad m] {α : Type} : {n : Nat} → (Fin n → m α) → m (Fin n → α)
  | 0, _ => pure Fin.elim0
  | _ + 1, f => do
      let first ← f 0
      let rest ← promiseAll fun i => f i.succ
      return Fin.cons first rest

namespace Child

/-- `NodeRef.dereference` inside `Optional.match`. -/
def dereference (store : TrieStore) : Child → Option (Result Node)
  | none => .none
  | ofHash hash => some (store.get hash)
  | ofNode keyPrefix children content => some (.ok ⟨keyPrefix, children, content⟩)

end Child

namespace Node

/-- `Node.contents`. A store can hold nodes in a cycle, where the source would not return, so the
walk has a bound: `none` means that the bound was too small. -/
def contents (store : TrieStore) : Nat → Node → Result (Option (List Content))
  | 0, _ => .ok none
  | fuel + 1, node => do
      let below ← (List.finRange 16).mapM fun i =>
        ((node.children i).dereference store).elim (.ok (some [])) fun child => do
          contents store fuel (← child)
      return (below.mapM id).map fun lists => node.content.toList ++ lists.flatten

def get (store : TrieStore) (node : Node) (key : Key) : Result (Option Content) :=
  let matchResult := Key.match node.keyPrefix key
  match matchResult.remain1, _h : matchResult.remain2 with
  | _ :: _, _ => .ok none -- not match prefix
  | [], [] => .ok node.content
  | [], letter :: rest =>
      match (node.children letter).dereference store with
      | some child => do get store (← child) rest
      | none => .ok none
  termination_by key.length
  decreasing_by exact Key.length_remain2_lt _h

def set (store : TrieStore) (node : Node) (key : Key) (content : Content) : Result Node :=
  let matchResult := Key.match node.keyPrefix key
  match _h1 : matchResult.remain1, _h2 : matchResult.remain2 with
  | [], [] => .ok ⟨node.keyPrefix, node.children, some content⟩
  | [], letter :: rest => do
      let child ←
        match (node.children letter).dereference store with
        | some child => do set store (← child) rest content
        | none => .ok ⟨rest, emptyBranch, some content⟩
      let children := Function.update node.children letter (Child.ofOptionalNode (some child))
      return ⟨node.keyPrefix, children, node.content⟩
  | letter :: rest, _ =>
      -- the node moves below the place where the keys part, and the key is set again from there
      let moved := Child.ofNode rest node.children node.content
      set store ⟨matchResult.keyPrefix, Function.update emptyBranch letter moved, none⟩ key content
  termination_by 2 * key.length + min (Key.match node.keyPrefix key).remain1.length 1
  decreasing_by
    · have hlt := Key.length_remain2_lt _h2
      omega
    · have hdone : (Key.match matchResult.keyPrefix key).remain1 = [] :=
        Key.remain1_match_keyPrefix node.keyPrefix key
      have hpart : (Key.match node.keyPrefix key).remain1 = letter :: rest := _h1
      rw [hdone, hpart]
      simp

def delete (store : TrieStore) (node : Node) (key : Key) : Result Node :=
  let matchResult := Key.match node.keyPrefix key
  match matchResult.remain1, _h : matchResult.remain2 with
  | [], [] => .ok ⟨node.keyPrefix, node.children, none⟩
  | [], letter :: rest => do
      let child ←
        match (node.children letter).dereference store with
        | some child => do pure (some (← delete store (← child) rest))
        | none => .ok none
      let children := Function.update node.children letter (Child.ofOptionalNode child)
      return ⟨node.keyPrefix, children, node.content⟩
  | _ :: _, _ => .ok node
  termination_by key.length
  decreasing_by exact Key.length_remain2_lt _h

def clear (store : TrieStore) (node : Node) (key : Key) : Result Node :=
  let matchResult := Key.match node.keyPrefix key
  match matchResult.remain1, _h : matchResult.remain2 with
  | _, [] => .ok null
  | [], letter :: rest => do
      let child ←
        match (node.children letter).dereference store with
        | some child => do pure (some (← clear store (← child) rest))
        | none => .ok none
      let children := Function.update node.children letter (Child.ofOptionalNode child)
      return ⟨node.keyPrefix, children, node.content⟩
  | _ :: _, _ :: _ => .ok node
  termination_by key.length
  decreasing_by exact Key.length_remain2_lt _h

/-- The children that exist, each with its index and the node it refers to. -/
def existingChildren (store : TrieStore) (children : Fin 16 → Child) :
    List (Fin 16 × Result Node) :=
  (List.finRange 16).filterMap fun index =>
    ((children index).dereference store).map fun ref => (index, ref)

/-- The second half of `Node.normalize`, after the children are normalized. -/
def collapse (store : TrieStore) (keyPrefix : Key) (normalizedChildren : Fin 16 → Child)
    (content : Option Content) : Result (Option Node) :=
  match content, existingChildren store normalizedChildren with
  | none, [] => .ok none
  | none, [(index, ref)] => do
      let child ← ref
      return some ⟨keyPrefix ++ index :: child.keyPrefix, child.children, child.content⟩
  | content, _ => .ok (some ⟨keyPrefix, normalizedChildren, content⟩)

end Node

namespace Child

/-- `Node.normalize` on a child; the node behind a hash is normalized already. -/
def normalize (store : TrieStore) : Child → Result Child
  | none => .ok none
  | ofHash hash => .ok (ofHash hash)
  | ofNode keyPrefix children content => do
      let normalizedChildren ← promiseAll fun i => (children i).normalize store
      return ofOptionalNode (← Node.collapse store keyPrefix normalizedChildren content)

end Child

namespace Node

def normalize (store : TrieStore) (node : Node) : Result (Option Node) := do
  let normalizedChildren ← promiseAll fun i => (node.children i).normalize store
  collapse store node.keyPrefix normalizedChildren node.content

/-- The second half of `Node.save`, after the children are saved. -/
def store (c : Crypto) (keyPrefix : Key) (children : Fin 16 → Option Hash)
    (content : Option Content) : Action TrieStore Node := do
  let node : Node := ⟨keyPrefix, fun i => Child.ofOptionalHash (children i), content⟩
  TrieStore.set (node.hash c) node
  return node

end Node

namespace Child

/-- `Node.save` on a child, with the hash its parent keeps. -/
def save (c : Crypto) : Child → Action TrieStore (Option Hash)
  | none => pure .none
  | ofHash hash => pure (some hash)
  | ofNode keyPrefix children content => do
      let children ← promiseAll fun i => (children i).save c
      let node ← Node.store c keyPrefix children content
      return some (node.hash c)

end Child

namespace Node

def save (c : Crypto) (node : Node) : Action TrieStore Node := do
  let children ← promiseAll fun i => (node.children i).save c
  store c node.keyPrefix children node.content

end Node

end UniqysKit
