import UniqysKit.MerklePatriciaTrie.Refinement

/-!
# What an operation writes

An operation on a trie saves some nodes and then, if it does not throw, the root.  `Updated` says how
one operation can end.
-/

namespace UniqysKit

open Library

variable (c : Crypto)

namespace TrieStore

/-- Nodes are put under their hashes, and nothing else is written. -/
def putting : Fallible.Progress TrieStore where
  rel st st' := ∃ nodes, st' = st.putAll c nodes
  refl st := ⟨[], rfl⟩
  trans := by
    rintro st _ _ ⟨nodes, rfl⟩ ⟨nodes', rfl⟩
    exact ⟨nodes ++ nodes', (putAll_append st nodes nodes').symm⟩

theorem putting_set (node : Node) : Fallible.Respects (putting c) (set (node.hash c) node) := by
  intro st
  unfold set
  cases hbytes : node.serialize with
  | ok bytes =>
      refine ⟨[node], ?_⟩
      simp [putAll, hbytes, Except.toOption]
  | error e => exact ⟨[], rfl⟩

variable {c}

/-- The record of the root is not one of a node. -/
theorem rootKey_putAll (st : TrieStore) (nodes : List Node) :
    (st.putAll c nodes).store rootKey = st.store rootKey := by
  induction nodes generalizing st with
  | nil => rfl
  | cons node nodes ih =>
      rw [← List.singleton_append, putAll_append, ih]
      simp only [putAll, List.foldl_cons, List.foldl_nil, put, write]
      exact Function.update_of_ne (nodeKey_ne_rootKey _).symm _ _

end TrieStore

namespace MerklePatriciaTrie

/-- How an operation can end: some nodes are saved, and unless it throws there is a root after them. -/
inductive Updated (trie : MerklePatriciaTrie) : EStateM.Result Error MerklePatriciaTrie Unit → Prop
  | root (nodes : List Node) (rootHash : Hash) :
      Updated trie (.ok () { trie with
        store := (trie.store.putAll c nodes).write TrieStore.rootKey rootHash.serialize
        rootHash })
  | nodes (nodes : List Node) (e : Error) :
      Updated trie (.error e { trie with store := trie.store.putAll c nodes })

variable {c} {trie : MerklePatriciaTrie} {α : Type}

/-- What only reads before it changes nothing. -/
theorem Updated.bind {x : Action MerklePatriciaTrie α} {f : α → Action MerklePatriciaTrie Unit}
    (hx : Fallible.Respects (.constant id) x) (hf : ∀ a, Updated c trie (f a trie)) :
    Updated c trie ((x >>= f) trie) := by
  have hsame := hx trie
  rcases Fallible.bind_cases x f trie with ⟨a, trie', hxs, hbind⟩ | ⟨e, trie', hxs, hbind⟩
  · rw [hxs] at hsame
    obtain rfl : trie' = trie := hsame
    rw [hbind]
    exact hf a
  · rw [hxs] at hsame
    obtain rfl : trie' = trie := hsame
    rw [hbind]
    exact .nodes [] e

theorem updated_save (node : Node) : Updated c trie (save c node trie) := by
  refine Updated.bind (respects_reading _) ?_
  intro normalized
  cases normalized with
  | none => exact .root [] _
  | some node =>
      -- saving may stop halfway: the nodes so far are stored and the root stays
      have hnodes := Node.respects_save (TrieStore.putting_set c) node trie.store
      cases hsave : node.save c trie.store with
      | error e st =>
          rw [hsave] at hnodes
          rcases hnodes with ⟨nodes, hst⟩
          obtain rfl : st = trie.store.putAll c nodes := hst
          have hstop : onStore (node.save c) trie =
              .error e { trie with store := trie.store.putAll c nodes } := by
            simp only [onStore, hsave]
          simp only
          rw [Fallible.bind_error hstop]
          exact .nodes nodes e
      | ok saved st =>
          rw [hsave] at hnodes
          rcases hnodes with ⟨nodes, hst⟩
          obtain rfl : st = trie.store.putAll c nodes := hst
          simp only
          rw [Fallible.bind_ok (onStore_ok hsave)]
          exact .root nodes _

theorem updated_apply (op : Operation) : Updated c trie (op.apply c trie) := by
  cases op with
  | set content =>
      exact .bind respects_root fun root => .bind (respects_reading _) fun node => updated_save node
  | delete key =>
      exact .bind respects_root fun root => .bind (respects_reading _) fun node => updated_save node
  | clear keyPrefix =>
      exact .bind respects_root fun root => .bind (respects_reading _) fun node => updated_save node

/-- The root of a fresh trie is recorded. -/
theorem rootKey_ready_new {trie : MerklePatriciaTrie} (h : ready c (new c) = .ok () trie) :
    trie.store.store TrieStore.rootKey = some trie.rootHash.serialize := by
  obtain ⟨bytes, hbytes⟩ : TrieStore.Storable Node.null := ⟨_, rfl⟩
  rw [ready_new_eq hbytes] at h
  cases h
  simp only [TrieStore.write, Function.update_self]

/-- A root that is in the store is taken from there. -/
theorem ready_of_root {store : TrieStore} {rootHash rootHash' : Hash}
    (h : store.store TrieStore.rootKey = some rootHash.serialize) :
    ready c ⟨store, rootHash', false⟩ = .ok () ⟨store, rootHash, true⟩ := by
  have hread : TrieStore.getRoot store = .ok (some rootHash) := by
    have hdeserialize := rootHash.deserialize_append []
    rw [List.append_nil] at hdeserialize
    simp only [TrieStore.getRoot, h, hdeserialize]
    rfl
  have hroot : reading TrieStore.getRoot ⟨store, rootHash', false⟩ =
      .ok (some rootHash) ⟨store, rootHash', false⟩ := by
    simp only [reading, hread]
  rw [ready, Fallible.get_bind, if_neg Bool.false_ne_true, Fallible.bind_ok hroot]
  rfl

end MerklePatriciaTrie

end UniqysKit
