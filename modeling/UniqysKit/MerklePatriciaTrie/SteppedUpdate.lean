import UniqysKit.MerklePatriciaTrie.NodeReads

/-!
# Reading and saving in steps

`MerklePatriciaTrie.get` and the updates read node by node, and `Node.save` puts node by node: a node
after its children, and apart from that in any order.  Other code can run after each read and each put.

Puts of others do no harm as long as they leave the entries that are there (`TrieStore.Grows`).  Then a
program over the store still comes to what it came to before, and a node that is half saved still
stands for the same tree.
-/

namespace UniqysKit

open Library

/-! ## The programs -/

namespace MerklePatriciaTrie

/-- The reads of `get`, after the look at the root hash. -/
def getCode (rootHash : Hash) (key : Bytes) : NodeCode (Option Content) := do
  (← .perform rootHash).getCode (Key.bufferToKey key)

/-- The reads of an operation, after the look at the root hash. What they come to is saved. -/
def updateCode (rootHash : Hash) (op : Operation) : NodeCode (Option Node) := do
  (← op.code (← .perform rootHash)).normalizeCode

end MerklePatriciaTrie

namespace Child

def isSaved : Child → Bool
  | ofNode _ _ _ => false
  | _ => true

/-- A `set` of `save`: the node at the end of the path, if it is in memory and its children are
saved, and what `save` is left with after it. -/
def saveAt (c : Crypto) : List (Fin 16) → Child → Option (Node × Child)
  | [], ofNode keyPrefix children content =>
      if ∀ i, (children i).isSaved then
        some (⟨keyPrefix, children, content⟩, ofHash (Node.hash c ⟨keyPrefix, children, content⟩))
      else .none
  | letter :: path, ofNode keyPrefix children content =>
      ((children letter).saveAt c path).map fun (node, child) =>
        (node, ofNode keyPrefix (Function.update children letter child) content)
  | _, _ => .none

end Child

namespace TrieStore

/-- Under the hash of the node is nothing yet, or this node. -/
def isFresh (c : Crypto) (st : TrieStore) (node : Node) : Bool :=
  st.store (nodeKey (node.hash c)) = none ||
    st.store (nodeKey (node.hash c)) = node.serialize.toOption

/-- What could be read is read the same, and what was saved stays saved. -/
structure Grows (st st' : TrieStore) : Prop where
  get : ∀ hash node, st.get hash = .ok node → st'.get hash = .ok node
  saved : st.saved ⊆ st'.saved

end TrieStore

/-- A normal tree whose contents are where their keys say, and have these values. -/
structure TreeOf (contents : Bytes → Option Bytes) (t : TrieTree) : Prop where
  normal : t.Normal
  located : Patricia.Located Content.nibbles [] t
  values : ∀ key, (t.lookup (Key.bufferToKey key)).map Content.value = contents key

/-- The root hash is that of a tree with these values, all of whose nodes were saved at some time. -/
def StandsFor (c : Crypto) (nodes : List Node) (rootHash : Hash)
    (contents : Bytes → Option Bytes) : Prop :=
  ∃ t, TreeOf contents t ∧ Logged c nodes t ∧ rootHash = rootHashOf c t

section Lemmas

variable {c : Crypto} {st st' : TrieStore} {contents contents' : Bytes → Option Bytes} {t : TrieTree}

/-! ## Stores that grow -/

theorem TrieStore.Grows.refl (st : TrieStore) : st.Grows st := ⟨fun _ _ => id, List.Subset.refl _⟩

theorem TrieStore.grows_writeRoot (st : TrieStore) (value : Bytes) :
    st.Grows (st.write TrieStore.rootKey value) := by
  refine ⟨?_, List.Subset.refl _⟩
  intro hash node hget
  rw [TrieStore.get_writeRoot]
  exact hget

theorem TrieStore.grows_putAll {node : Node} (hs : TrieStore.Storable node)
    (hfresh : st.isFresh c node = true) : st.Grows (st.putAll c [node]) := by
  rcases hs with ⟨bytes, hbytes⟩
  refine ⟨?_, ?_⟩
  · intro hash old hget
    have hput := @get_put st node bytes hbytes (node.hash c) hash
    simp only [putAll, List.foldl_cons, List.foldl_nil, hbytes, Except.toOption, Option.getD_some]
    rw [hput]
    split
    · rename_i hhash
      -- what was read there is the node that is put
      subst hhash
      simp only [isFresh, hbytes, Except.toOption, Bool.or_eq_true, decide_eq_true_eq] at hfresh
      have hread := Node.deserialize_append hbytes []
      rw [List.append_nil] at hread
      rcases hfresh with hnone | hsome
      · simp only [TrieStore.get, hnone] at hget
        cases hget
      · simp only [TrieStore.get, hsome, hread] at hget
        exact hget
    · exact hget
  · rw [saved_putAll]
    exact List.subset_append_left _ _

theorem Stored.grows (h : Stored c st t) (hgrows : st.Grows st') : Stored c st' t := by
  intro label children content hs
  rcases h label children content hs with ⟨hget, hsaved⟩
  exact ⟨hgrows.get _ _ hget, hgrows.saved hsaved⟩

/-- A child stands for its tree as long as the stored parts of the tree stay stored. -/
theorem Resolves.frame {child : Child} (h : Resolves c st child t)
    (hframe : ∀ s, Patricia.Subtree s t → Stored c st s → Stored c st' s) :
    Resolves c st' child t := by
  induction child generalizing t with
  | none => exact h
  | ofHash hash =>
      rcases h with ⟨hdigest, hstored, hn⟩
      have hne : t ≠ .nil := by
        rintro rfl
        cases hdigest
      exact ⟨hdigest, hframe t (.refl hne) hstored, hn⟩
  | ofNode keyPrefix children content ih =>
      rcases h with ⟨below, rfl, hbelow⟩
      exact ⟨below, rfl, fun i => ih i (hbelow i) fun s hs => hframe s (.inr ⟨i, hs⟩)⟩

theorem Resolves.grows {child : Child} (h : Resolves c st child t) (hgrows : st.Grows st') :
    Resolves c st' child t :=
  h.frame fun _ _ hstored => hstored.grows hgrows

theorem eval_grows {α : Type} {code : NodeCode α} {a : α} (h : code.eval st.get = .ok a)
    (hgrows : st.Grows st') : code.eval st'.get = .ok a :=
  Program.eval_mono hgrows.get h

theorem StandsFor.mono {nodes nodes' : List Node} {rootHash : Hash}
    (h : StandsFor c nodes rootHash contents) (hsub : nodes ⊆ nodes') :
    StandsFor c nodes' rootHash contents := by
  rcases h with ⟨t, ht, hlogged, hroot⟩
  exact ⟨t, ht, hlogged.mono hsub, hroot⟩

/-- Without a collision, a root hash stands for one map. -/
theorem StandsFor.unique {nodes : List Node} {rootHash : Hash} (hc : NoCollision c nodes)
    (hnull : Node.null ∈ nodes) (h : StandsFor c nodes rootHash contents)
    (h' : StandsFor c nodes rootHash contents') : contents = contents' := by
  rcases h with ⟨t, ht, hlogged, hroot⟩
  rcases h' with ⟨t', ht', hlogged', hroot'⟩
  obtain rfl : t = t' :=
    MerklePatriciaTrie.eq_of_rootHashOf hc hnull ht.normal ht'.normal ht.located ht'.located hlogged hlogged'
      (hroot.symm.trans hroot')
  funext key
  rw [← ht.values, ← ht'.values]

/-! ## What is read -/

theorem NodeResolves.code {node : Node} (h : NodeResolves c st node t) (op : Operation) :
    ∃ node' t', (op.code node).eval st.get = .ok node' ∧ NodeResolves c st node' t' ∧
      ∀ k, t'.lookup k = op.effect t.lookup k := by
  cases op with
  | set content =>
      rw [Operation.code, Node.setCode_eval]
      exact h.set content.nibbles content
  | delete key =>
      rw [Operation.code, Node.deleteCode_eval]
      exact h.delete (Key.bufferToKey key)
  | clear keyPrefix =>
      have hkey : (keyPrefix.map Key.bufferToKey).getD [] =
          Key.bufferToKey (keyPrefix.getD []) := by
        cases keyPrefix with
        | none => rfl
        | some keyPrefix => rfl
      rw [Operation.code, Node.clearCode_eval, hkey]
      exact h.clear (Key.bufferToKey (keyPrefix.getD []))

namespace MerklePatriciaTrie

variable {trie : MerklePatriciaTrie} {op : Operation}

/-- The root that is read stands for the tree. -/
theorem Readable.get_rootHash (h : Readable c trie t) :
    ∃ node t₀, trie.store.get trie.rootHash = .ok node ∧ NodeResolves c trie.store node t₀ ∧
      ∀ k, t₀.lookup k = t.lookup k := by
  rcases h.root with ⟨node, t₀, hroot, hnode, hlookup, -⟩
  refine ⟨node, t₀, ?_, hnode, hlookup⟩
  rw [MerklePatriciaTrie.root, Fallible.bind_ok (checkReady_ok h.isReady), Fallible.get_bind] at hroot
  simp only [reading] at hroot
  cases hget : trie.store.get trie.rootHash with
  | ok node' =>
      rw [hget] at hroot
      cases hroot
      rfl
  | error e =>
      rw [hget] at hroot
      cases hroot

theorem Readable.getCode (h : Readable c trie t) (key : Bytes) :
    (MerklePatriciaTrie.getCode trie.rootHash key).eval trie.store.get =
      .ok (t.lookup (Key.bufferToKey key)) := by
  rcases h.get_rootHash with ⟨node, t₀, hget, hnode, hlookup⟩
  rw [MerklePatriciaTrie.getCode, Program.eval_bind, Program.eval_perform, hget, Result.ok_bind,
    Node.getCode_eval, hnode.get, hlookup]

/-- The reads of an operation come to a node for the tree after it. -/
theorem Sound.updateCode (h : Sound c trie t)
    (hvalues : ∀ key, (t.lookup (Key.bufferToKey key)).map Content.value = contents key)
    (op : Operation) :
    ∃ normalized t', (MerklePatriciaTrie.updateCode trie.rootHash op).eval trie.store.get =
        .ok normalized ∧
      Resolves c trie.store (Child.ofOptionalNode normalized) t' ∧
      TreeOf (op.update contents) t' := by
  rcases h.get_rootHash with ⟨node, t₀, hget, hnode, hlookup⟩
  rcases hnode.code op with ⟨node', t₁, hcode, hnode', hmap⟩
  rcases hnode'.normalize with ⟨normalized, t', hnormalize, hresolves, hn, hmap'⟩
  have hold : t₀.lookup = t.lookup := funext hlookup
  have heffect : ∀ k, t'.lookup k = op.effect t.lookup k := by
    intro k
    rw [hmap', hmap, hold]
  refine ⟨normalized, t', ?_, hresolves, hn, ?_, ?_⟩
  · simp only [MerklePatriciaTrie.updateCode, Program.eval_bind, Program.eval_perform, hget,
      Result.ok_bind, hcode, Node.normalizeCode_eval, hnormalize]
  · intro k content hk
    refine op.effect_located ?_ k content ((heffect k).symm.trans hk)
    intro k' content' hk'
    exact h.located k' content' hk'
  · intro key
    rw [heffect, Operation.effect_value]
    congr 1
    exact funext hvalues

end MerklePatriciaTrie

/-! ## What is put -/

/-- A saved child is the reference to its tree. -/
theorem Resolves.eq_refOf {child : Child} (h : Resolves c st child t) (hsaved : child.isSaved = true) :
    child = refOf c t ∧ Stored c st t := by
  cases child with
  | none =>
      obtain rfl : t = .nil := h
      exact ⟨rfl, fun _ _ _ hs => absurd hs (by simp [Patricia.Subtree])⟩
  | ofHash hash =>
      rcases h with ⟨hdigest, hstored, -⟩
      refine ⟨?_, hstored⟩
      rw [refOf, hdigest]
      rfl
  | ofNode keyPrefix children content => cases hsaved

/-- What is put is a node of the tree above stored ones. Once it is stored as well, what `save` is left
with stands for the same tree. -/
theorem Resolves.saveAt {child child' : Child} {path : List (Fin 16)} {node : Node}
    (h : Resolves c st child t) (hn : t.Normal)
    (hsave : child.saveAt c path = some (node, child')) :
    ∃ label below content, node = record c label below content ∧
      Patricia.Subtree (.node label below content) t ∧ (∀ i, Stored c st (below i)) ∧
      ∀ st', (∀ s, Patricia.Subtree s t → Stored c st s → Stored c st' s) →
        Stored c st' (.node label below content) → Resolves c st' child' t := by
  induction path generalizing child child' t with
  | nil =>
      cases child with
      | none => cases hsave
      | ofHash hash => cases hsave
      | ofNode keyPrefix children content =>
          rcases h with ⟨below, rfl, hbelow⟩
          rw [Child.saveAt] at hsave
          split at hsave
          · rename_i hsaved
            cases hsave
            have hnode : (⟨keyPrefix, children, content⟩ : Node) =
                record c keyPrefix below content := by
              refine Node.ext rfl ?_ rfl
              funext i
              exact ((hbelow i).eq_refOf (hsaved i)).1
            refine ⟨keyPrefix, below, content, hnode, .inl rfl,
              fun i => ((hbelow i).eq_refOf (hsaved i)).2, ?_⟩
            intro st' _ hstored
            refine ⟨?_, hstored, hn⟩
            rw [hnode, hash_record]
            rfl
          · cases hsave
  | cons letter path ih =>
      cases child with
      | none => cases hsave
      | ofHash hash => cases hsave
      | ofNode keyPrefix children content =>
          rcases h with ⟨below, rfl, hbelow⟩
          rw [Child.saveAt] at hsave
          rcases Option.map_eq_some_iff.mp hsave with ⟨⟨node', next⟩, hnext, heq⟩
          cases heq
          rcases ih (hbelow letter) (hn.child letter) hnext with
            ⟨label, children', content', hrecord, hs, hstored, hresolves⟩
          refine ⟨label, children', content', hrecord, .inr ⟨letter, hs⟩, hstored, ?_⟩
          intro st' hframe hst'
          refine ⟨below, rfl, ?_⟩
          intro i
          by_cases hi : i = letter
          · subst hi
            rw [Function.update_self]
            exact hresolves st' (fun s hs => hframe s (.inr ⟨i, hs⟩)) hst'
          · rw [Function.update_of_ne hi]
            exact (hbelow i).frame fun s hs => hframe s (.inr ⟨i, hs⟩)

section Put

variable {label path : Key} {below : Fin 16 → TrieTree} {content : Option Content}
  (hn : t.Normal) (hl : Patricia.Located Content.nibbles path t)
  (hs : Patricia.Subtree (.node label below content) t) (hbelow : ∀ i, Stored c st (below i))
  (hc : NoCollision c (st.saved ++ [record c label below content]))

include hbelow in
theorem logged_record :
    Logged c (st.saved ++ [record c label below content]) (.node label below content) := by
  rintro label' children' content' (heq | ⟨i, hs⟩)
  · rcases Patricia.node.inj heq with ⟨rfl, rfl, rfl⟩
    simp
  · exact List.mem_append_left _ (hbelow i label' children' content' hs).2

include hn hl hs in
theorem storable_subtree : TrieStore.Storable (record c label below content) := by
  rcases hs.located hl with ⟨path', hl'⟩
  exact storable_record (hs.normal hn) hl'

include hn hl hs hbelow hc

/-- A node of a tree does not take the place of other stored nodes of the tree. -/
theorem Stored.putAll {s : TrieTree} (hsub : Patricia.Subtree s t) (hstored : Stored c st s) :
    Stored c (st.putAll c [record c label below content]) s := by
  intro label' children' content' hs'
  rcases hstored label' children' content' hs' with ⟨hget, hsaved⟩
  have hsame : ∀ n ∈ [record c label below content],
      n.hash c = (record c label' children' content').hash c →
      n = record c label' children' content' := by
    intro n hn' hhash
    obtain rfl := List.mem_singleton.mp hn'
    rw [hash_record, hash_record] at hhash
    have hlogged' : Logged c (st.saved ++ [record c label below content])
        (.node label' children' content') := by
      intro label₂ children₂ content₂ hs₂
      exact List.mem_append_left _ (hstored label₂ children₂ content₂ (hs₂.trans hs')).2
    have hcontents := contents_eq_of_digest hc (logged_record hbelow) hlogged'
      (by simpa using hhash)
    have heq := Patricia.subtree_eq_of_contents hn hl hs (hs'.trans hsub) fun content => by
      rw [hcontents]
    rcases Patricia.node.inj heq with ⟨rfl, rfl, rfl⟩
    rfl
  refine ⟨TrieStore.get_putAll ?_ hsame (.inr hget), ?_⟩
  · intro n hn'
    obtain rfl := List.mem_singleton.mp hn'
    exact storable_subtree hn hl hs
  · rw [TrieStore.saved_putAll]
    exact List.mem_append_left _ hsaved

/-- Above stored nodes, the node that is put completes its tree. -/
theorem stored_putAll :
    Stored c (st.putAll c [record c label below content]) (.node label below content) := by
  rintro label' children' content' (heq | ⟨i, hs'⟩)
  · rcases Patricia.node.inj heq with ⟨rfl, rfl, rfl⟩
    refine ⟨TrieStore.get_putAll ?_ ?_ (.inl (by simp)), ?_⟩
    · intro n hn'
      obtain rfl := List.mem_singleton.mp hn'
      exact storable_subtree hn hl hs
    · intro n hn' _
      exact List.mem_singleton.mp hn'
    · rw [TrieStore.saved_putAll]
      simp
  · have hne : below i ≠ .nil := by
      intro hnil
      rw [hnil] at hs'
      exact hs'
    have hchild : Patricia.Subtree (below i) (.node label below content) := .inr ⟨i, .refl hne⟩
    have hsub := hchild.trans hs
    exact Stored.putAll hn hl hs hbelow hc hsub (hbelow i) label' children' content' hs'

theorem Consistent.put (h : Consistent c st) :
    Consistent c (st.putAll c [record c label below content]) := by
  rcases hs.located hl with ⟨path', hl'⟩
  refine h.putAll (hs.normal hn) hl' ?_ (logged_record hbelow) hc
  intro n hn'
  obtain rfl := List.mem_singleton.mp hn'
  exact ⟨storable_subtree hn hl hs, label, below, content, .inl rfl, rfl⟩

end Put

end Lemmas

end UniqysKit
