import UniqysKit.MerklePatriciaTrie.Save

/-!
# The trie refines a finite map

`MerklePatriciaTrie.Sound` ties a trie to the tree its root stands for.  Each of `set`, `delete` and
`clear` keeps it, with the tree changed as the reference map is; from this follow, for every run on
a fresh trie, that reads agree with the reference map and that the root is a commitment to it.

Collisions are excluded among the nodes that the run itself saved, and nowhere else: no hash is free
of collisions on all inputs.
-/

namespace UniqysKit

open Library

/-! ## Actions only add to the list of saved nodes -/

/-- Whether or not it throws, the action keeps the nodes that were saved before. -/
abbrev Growing {σ α : Type} (log : σ → List Node) (action : Action σ α) : Prop :=
  Fallible.Respects (.growing log) action

theorem respects_promiseAll {σ α : Type} {R : Fallible.Progress σ} {n : Nat}
    {f : Fin n → Action σ α} (h : ∀ i, Fallible.Respects R (f i)) :
    Fallible.Respects R (promiseAll f) := by
  induction n with
  | zero => exact .pure _
  | succ n ih =>
      rw [promiseAll]
      exact (h 0).bind fun first => (ih fun i => h i.succ).bind fun rest => .pure _

theorem TrieStore.growing_set (hash : Hash) (node : Node) :
    Growing TrieStore.saved (TrieStore.set hash node) := by
  intro st
  unfold TrieStore.set
  split
  · exact List.prefix_append _ _
  · exact List.prefix_rfl

section Saving

/- Saving a node only sets nodes under their own hashes. -/
variable {c : Crypto} {R : Fallible.Progress TrieStore}
  (hset : ∀ node : Node, Fallible.Respects R (TrieStore.set (node.hash c) node))
include hset

theorem Node.respects_store (keyPrefix : Key) (children : Fin 16 → Option Hash)
    (content : Option Content) : Fallible.Respects R (Node.store c keyPrefix children content) :=
  (hset _).bind fun _ => Fallible.Respects.pure _

theorem Child.respects_save (child : Child) : Fallible.Respects R (child.save c) := by
  induction child with
  | none => exact Fallible.Respects.pure _
  | ofHash hash => exact Fallible.Respects.pure _
  | ofNode keyPrefix children content ih =>
      exact (respects_promiseAll ih).bind fun hashes =>
        (Node.respects_store hset _ _ _).bind fun node => Fallible.Respects.pure _

theorem Node.respects_save (node : Node) : Fallible.Respects R (node.save c) :=
  (respects_promiseAll fun i => Child.respects_save hset (node.children i)).bind fun _ =>
    Node.respects_store hset _ _ _

end Saving

theorem Node.growing_save (c : Crypto) (node : Node) : Growing TrieStore.saved (node.save c) :=
  Node.respects_save (fun node => TrieStore.growing_set (node.hash c) node) node

namespace MerklePatriciaTrie

/-- The nodes saved so far. -/
def saved (trie : MerklePatriciaTrie) : List Node := trie.store.saved

/-- What no operation undoes: the nodes that were saved, and that the trie is ready. -/
def forward : Fallible.Progress MerklePatriciaTrie :=
  (Fallible.Progress.growing saved).both (.constant isReady)

/-- Whether or not it throws, the action keeps the saved nodes and the trie ready. -/
abbrev Forward {α : Type} (action : Action MerklePatriciaTrie α) : Prop :=
  Fallible.Respects forward action

theorem forward_onStore {α : Type} {action : Action TrieStore α}
    (h : Growing TrieStore.saved action) : Forward (onStore action) := by
  intro trie
  have hstep := h trie.store
  unfold onStore
  cases hres : action trie.store with
  | ok a st =>
      rw [hres] at hstep
      exact ⟨hstep, rfl⟩
  | error e st =>
      rw [hres] at hstep
      exact ⟨hstep, rfl⟩

section Reading

/- A step that only reads leaves the trie as it is. -/
variable {R : Fallible.Progress MerklePatriciaTrie}

theorem respects_reading {α : Type} (f : TrieStore → Result α) :
    Fallible.Respects R (reading f) := by
  intro trie
  unfold reading
  split
  · exact R.refl trie
  · exact R.refl trie

theorem respects_checkReady : Fallible.Respects R checkReady := by
  refine Fallible.Respects.get.bind ?_
  intro trie
  split
  · exact Fallible.Respects.throw _
  · exact Fallible.Respects.pure _

theorem respects_root : Fallible.Respects R root :=
  respects_checkReady.bind fun _ => Fallible.Respects.get.bind fun _ => respects_reading _

theorem respects_get (key : Bytes) : Fallible.Respects R (get key) :=
  respects_root.bind fun _ => (respects_reading _).bind fun _ => Fallible.Respects.pure _

end Reading

theorem forward_setRoot (hash : Hash) : Forward (onStore (TrieStore.setRoot hash)) := by
  refine forward_onStore ?_
  intro st
  exact List.prefix_rfl

theorem forward_save (c : Crypto) (node : Node) : Forward (save c node) := by
  refine (respects_reading _).bind ?_
  intro normalized
  have hfinish : ∀ newRoot : Node, Forward (do
      onStore (TrieStore.setRoot (newRoot.hash c))
      modify fun trie => { trie with rootHash := newRoot.hash c }) := by
    intro newRoot
    refine (forward_setRoot _).bind fun _ => Fallible.Respects.modify ?_
    intro trie
    exact ⟨List.prefix_rfl, rfl⟩
  cases normalized with
  | none => exact (Fallible.Respects.pure _).bind hfinish
  | some node => exact (forward_onStore (Node.growing_save c node)).bind hfinish

end MerklePatriciaTrie

/-! ## Operations and the reference map -/

/-- A call that changes the trie. -/
inductive Operation where
  | set (content : Content)
  | delete (key : Bytes)
  | clear (keyPrefix : Option Bytes)
  deriving DecidableEq

namespace Operation

def apply (c : Crypto) : Operation → Action MerklePatriciaTrie Unit
  | .set content => MerklePatriciaTrie.set c content
  | .delete key => MerklePatriciaTrie.delete c key
  | .clear keyPrefix => MerklePatriciaTrie.clear c keyPrefix

/-- Calls one after another; a throw ends the sequence. -/
def applyAll (c : Crypto) : List Operation → Action MerklePatriciaTrie Unit
  | [] => pure ()
  | op :: ops => do
      op.apply c
      applyAll c ops

/-- The reference: what the call does to a map from byte strings to byte strings. -/
def update : Operation → (Bytes → Option Bytes) → Bytes → Option Bytes
  | .set content, map, key => if key = content.key then some content.value else map key
  | .delete key', map, key => if key = key' then none else map key
  | .clear keyPrefix, map, key => if keyPrefix.getD [] <+: key then none else map key

/-- The same on half-byte keys. -/
def effect : Operation → (Key → Option Content) → Key → Option Content
  | .set content, map, k => if k = content.nibbles then some content else map k
  | .delete key, map, k => if k = Key.bufferToKey key then none else map k
  | .clear keyPrefix, map, k =>
      if Key.bufferToKey (keyPrefix.getD []) <+: k then none else map k

theorem effect_value (op : Operation) (map : Key → Option Content) (key : Bytes) :
    (op.effect map (Key.bufferToKey key)).map Content.value =
      op.update (fun key => (map (Key.bufferToKey key)).map Content.value) key := by
  have hinj : ∀ key', Key.bufferToKey key = Key.bufferToKey key' ↔ key = key' := fun key' =>
    Key.bufferToKey_injective.eq_iff
  cases op with
  | set content =>
      simp only [effect, update, Content.nibbles, hinj]
      split
      · rfl
      · rfl
  | delete key' =>
      simp only [effect, update, hinj]
      split
      · rfl
      · rfl
  | clear keyPrefix =>
      simp only [effect, update, Key.bufferToKey_prefix]
      split
      · rfl
      · rfl

/-- A content after the call is the one that was set, or was there before. -/
theorem effect_cases {op : Operation} {map : Key → Option Content} {k : Key} {content : Content}
    (h : op.effect map k = some content) :
      (op = .set content ∧ k = content.nibbles) ∨ map k = some content := by
  cases op with
  | set content' =>
      simp only [effect] at h
      split at h
      · rename_i heq
        cases h
        exact .inl ⟨rfl, heq⟩
      · exact .inr h
  | delete key =>
      simp only [effect] at h
      split at h
      · cases h
      · exact .inr h
  | clear keyPrefix =>
      simp only [effect] at h
      split at h
      · cases h
      · exact .inr h

/-- Contents stay under their own keys. -/
theorem effect_located (op : Operation) {map : Key → Option Content}
    (h : ∀ k content, map k = some content → content.nibbles = k) (k : Key) (content : Content)
    (hk : op.effect map k = some content) : content.nibbles = k := by
  rcases effect_cases hk with ⟨rfl, hkey⟩ | hold
  · exact hkey.symm
  · exact h k content hold

theorem forward_apply (c : Crypto) (op : Operation) : MerklePatriciaTrie.Forward (op.apply c) := by
  cases op with
  | set content =>
      exact MerklePatriciaTrie.respects_root.bind fun _ =>
        (MerklePatriciaTrie.respects_reading _).bind fun _ => MerklePatriciaTrie.forward_save c _
  | delete key =>
      exact MerklePatriciaTrie.respects_root.bind fun _ =>
        (MerklePatriciaTrie.respects_reading _).bind fun _ => MerklePatriciaTrie.forward_save c _
  | clear keyPrefix =>
      exact MerklePatriciaTrie.respects_root.bind fun _ =>
        (MerklePatriciaTrie.respects_reading _).bind fun _ => MerklePatriciaTrie.forward_save c _

theorem applyAll_append (c : Crypto) (ops later : List Operation) :
    applyAll c (ops ++ later) = (do
      applyAll c ops
      applyAll c later) := by
  induction ops with
  | nil => simp [applyAll]
  | cons op ops ih => simp [applyAll, ih]

theorem forward_applyAll (c : Crypto) (ops : List Operation) :
    MerklePatriciaTrie.Forward (applyAll c ops) := by
  induction ops with
  | nil => exact Fallible.Respects.pure _
  | cons op ops ih => exact (forward_apply c op).bind fun _ => ih

end Operation

/-! ## The invariant -/

section Invariant

variable (c : Crypto)

/-- The nodes in the store: each was part of a normal tree whose contents know their keys, and under
its hash there still is a saved node with that hash. -/
structure Consistent (st : TrieStore) : Prop where
  noCollision : NoCollision c st.saved
  null_mem : Node.null ∈ st.saved
  genuine : ∀ node ∈ st.saved, node = Node.null ∨ ∃ path label children content,
    node = record c label children content ∧
      (Patricia.node label children content).Normal ∧
      Patricia.Located Content.nibbles path (.node label children content) ∧
      Logged c st.saved (.node label children content)
  present : ∀ node ∈ st.saved, ∃ node' ∈ st.saved,
    st.get (node.hash c) = .ok node' ∧ node'.hash c = node.hash c

/-- The root hash of a tree; an empty tree has the hash of `Node.null`. -/
def rootHashOf (t : TrieTree) : Hash := (t.digest (combine c)).getD (Node.null.hash c)

/-- The trie is ready and reading from its root gives `t`. -/
structure MerklePatriciaTrie.Readable (trie : MerklePatriciaTrie) (t : TrieTree) : Prop where
  isReady : trie.isReady = true
  consistent : Consistent c trie.store
  normal : t.Normal
  stored : Stored c trie.store t
  rootHash : trie.rootHash = rootHashOf c t

/-- The trie is readable and its contents are where their keys say. -/
structure MerklePatriciaTrie.Sound (trie : MerklePatriciaTrie) (t : TrieTree) : Prop
    extends Readable c trie t where
  located : Patricia.Located Content.nibbles [] t

variable {c}

theorem preImage_null : Node.null.preImage c = ([], none) := by
  simp [Node.preImage, Node.null, Node.emptyBranch, Child.hash]

/-- A node of a normal tree hashes something. -/
theorem preImage_record_ne {label : Key} {children : Fin 16 → TrieTree} {content : Option Content}
    (hn : (Patricia.node label children content).Normal) :
    (record c label children content).preImage c ≠ Node.null.preImage c := by
  rw [preImage_record, preImage_null]
  intro h
  rcases Prod.mk.inj h with ⟨hchildren, rfl⟩
  rcases hn.2 rfl with ⟨a, -, -, ha, -⟩
  have hnone := List.filterMap_eq_nil_iff.mp hchildren a (List.mem_finRange a)
  exact ha (Patricia.digest_eq_none.mp hnone)

/-- The entry of `Node.null` is never overwritten. -/
theorem Consistent.get_null {st : TrieStore} (h : Consistent c st) :
    st.get (Node.null.hash c) = .ok Node.null := by
  rcases h.present Node.null h.null_mem with ⟨node, hmem, hget, hhash⟩
  rcases h.genuine node hmem with rfl | ⟨path, label, children, content, rfl, hn, -, -⟩
  · exact hget
  · exact absurd (h.noCollision _ hmem _ h.null_mem hhash) (preImage_record_ne hn)

theorem Stored.congr {st st' : TrieStore} {t : TrieTree} (h : Stored c st t)
    (hget : ∀ hash, st'.get hash = st.get hash) (hsaved : st'.saved = st.saved) :
    Stored c st' t := by
  intro label children content hs
  rw [hget, hsaved]
  exact h label children content hs

theorem Consistent.congr {st st' : TrieStore} (h : Consistent c st)
    (hget : ∀ hash, st'.get hash = st.get hash) (hsaved : st'.saved = st.saved) :
    Consistent c st' := by
  refine ⟨?_, ?_, ?_, ?_⟩
  · rw [hsaved]
    exact h.noCollision
  · rw [hsaved]
    exact h.null_mem
  · rw [hsaved]
    exact h.genuine
  · intro node hnode
    rw [hsaved] at hnode ⊢
    rw [hget]
    exact h.present node hnode

theorem Logged.mono {nodes nodes' : List Node} {t : TrieTree} (h : Logged c nodes t)
    (hsub : nodes ⊆ nodes') : Logged c nodes' t := by
  intro label children content hs
  exact hsub (h label children content hs)

theorem TrieStore.get_writeRoot (st : TrieStore) (value : Bytes) (hash : Hash) :
    (st.write TrieStore.rootKey value).get hash = st.get hash := by
  simp only [TrieStore.get, TrieStore.write,
    Function.update_of_ne (TrieStore.nodeKey_ne_rootKey hash)]

/-- Saving the nodes of a normal located tree keeps the store consistent. -/
theorem Consistent.putAll {st : TrieStore} (h : Consistent c st) {nodes : List Node} {t : TrieTree}
    {path : Key} (hn : t.Normal) (hl : Patricia.Located Content.nibbles path t)
    (hnodes : ∀ n ∈ nodes, TrieStore.Storable n ∧
      ∃ label children content, Patricia.Subtree (.node label children content) t ∧
        n = record c label children content)
    (hlogged : Logged c (st.saved ++ nodes) t) (hc : NoCollision c (st.saved ++ nodes)) :
    Consistent c (st.putAll c nodes) := by
  have hstorable : ∀ n ∈ nodes, TrieStore.Storable n := fun n hmem => (hnodes n hmem).1
  have hold : st.saved ⊆ st.saved ++ nodes := List.subset_append_left _ _
  refine ⟨?_, ?_, ?_, ?_⟩
  · rw [TrieStore.saved_putAll]
    exact hc
  · rw [TrieStore.saved_putAll]
    exact hold h.null_mem
  · rw [TrieStore.saved_putAll]
    intro node hnode
    rcases List.mem_append.mp hnode with hnode | hnode
    -- a node from before
    · rcases h.genuine node hnode with hnull | ⟨path', label, children, content, hrec, hn', hl', hlog⟩
      · exact .inl hnull
      · exact .inr ⟨path', label, children, content, hrec, hn', hl', hlog.mono hold⟩
    -- a node that is written now
    · rcases hnodes node hnode with ⟨-, label, children, content, hs, rfl⟩
      rcases hs.located hl with ⟨path', hl'⟩
      refine .inr ⟨path', label, children, content, rfl, hs.normal hn, hl', ?_⟩
      intro label' children' content' hs'
      exact hlogged label' children' content' (hs'.trans hs)
  · rw [TrieStore.saved_putAll]
    intro node hnode
    rcases @TrieStore.get_putAll_cases c st nodes (node.hash c) hstorable with
      ⟨hne, hsame⟩ | ⟨n, hn', hhash, hget⟩
    · rcases List.mem_append.mp hnode with hnode | hnode
      · rcases h.present node hnode with ⟨node', hmem', hget', hhash'⟩
        exact ⟨node', hold hmem', hsame.trans hget', hhash'⟩
      · exact absurd rfl (hne node hnode)
    · exact ⟨n, List.mem_append_right _ hn', hget, hhash⟩

end Invariant

/-! ## One operation -/

namespace MerklePatriciaTrie

variable {c : Crypto} {trie : MerklePatriciaTrie} {t : TrieTree}

theorem reading_ok {α : Type} {f : TrieStore → Result α} {a : α} (h : f trie.store = .ok a) :
    reading f trie = .ok a trie := by
  simp only [reading, h]

theorem onStore_ok {α : Type} {action : Action TrieStore α} {a : α} {st : TrieStore}
    (h : action trie.store = .ok a st) : onStore action trie = .ok a { trie with store := st } := by
  simp only [onStore, h]

theorem checkReady_ok (h : trie.isReady = true) : checkReady trie = .ok () trie := by
  rw [checkReady, Fallible.get_bind]
  simp only [h, Bool.not_true, Bool.false_eq_true, if_false]
  rfl

theorem Readable.root_of_get (h : Readable c trie t) {node : Node}
    (hget : trie.store.get trie.rootHash = .ok node) :
    MerklePatriciaTrie.root trie = .ok node trie := by
  rw [MerklePatriciaTrie.root, Fallible.bind_ok (checkReady_ok h.isReady), Fallible.get_bind]
  exact reading_ok hget

/-- The root of a readable trie stands for its tree; the empty tree is read as `Node.null`. -/
theorem Readable.root (h : Readable c trie t) :
    ∃ node t₀, root trie = .ok node trie ∧ NodeResolves c trie.store node t₀ ∧
      (∀ k, t₀.lookup k = t.lookup k) ∧ t₀.contents = t.contents ∧
      node.hash c = trie.rootHash := by
  -- the empty tree has no node in the store, its root hash is that of `Node.null`
  cases t with
  | nil =>
      refine ⟨Node.null, _, h.root_of_get ?_, nodeResolves_null, ?_, ?_, h.rootHash.symm⟩
      · rw [h.rootHash]
        exact h.consistent.get_null
      · intro k
        simp [Patricia.lookup_leaf]
      · simp [Patricia.contents]
  | node label children content =>
      have hhash := hash_record c label children content
      refine ⟨record c label children content, _, h.root_of_get ?_, h.stored.nodeResolves h.normal,
        fun k => rfl, rfl, hhash.trans h.rootHash.symm⟩
      rw [h.rootHash]
      have hget := (h.stored label children content (.inl rfl)).1
      rw [hhash] at hget
      exact hget

theorem Readable.get (h : Readable c trie t) (key : Bytes) :
    MerklePatriciaTrie.get key trie =
      .ok ((t.lookup (Key.bufferToKey key)).map Content.value) trie := by
  rcases h.root with ⟨node, t₀, hroot, hnode, hlookup, -⟩
  have hread := @reading_ok trie _ (fun store => node.get store (Key.bufferToKey key)) _
    (hnode.get (Key.bufferToKey key))
  rw [MerklePatriciaTrie.get, Fallible.bind_ok hroot, Fallible.bind_ok hread, hlookup]
  rfl

/-- What is read under a hash has not changed, or the hash is that of a node of the tree. -/
def WritesOnly (c : Crypto) (trie trie' : MerklePatriciaTrie) (t : TrieTree) : Prop :=
  ∀ hash, trie'.store.get hash = trie.store.get hash ∨ ∃ label children content,
    Patricia.Subtree (.node label children content) t ∧
      (record c label children content).hash c = hash

/-- Saving a changed root keeps the trie sound, with the map of the changed root. -/
theorem Sound.save (h : Sound c trie t) {node : Node} {t₁ : TrieTree}
    (hnode : NodeResolves c trie.store node t₁)
    (hl : Patricia.Located Content.nibbles [] t₁) :
    ∃ trie', MerklePatriciaTrie.save c node trie = .ok () trie' ∧
      (NoCollision c trie'.saved → ∃ t', Sound c trie' t' ∧ (∀ k, t'.lookup k = t₁.lookup k) ∧
        WritesOnly c trie trie' t') := by
  rcases hnode.normalize with ⟨normalized, t', hnormalize, hresolves, hn, hlookup⟩
  have hl' : Patricia.Located Content.nibbles [] t' := by
    intro k content hk
    exact hl k content ((hlookup k).symm.trans hk)
  have hread := @reading_ok trie _ (fun store => node.normalize store) _ hnormalize
  rw [MerklePatriciaTrie.save, Fallible.bind_ok hread]
  cases normalized with
  | none =>
      -- nothing is left, and the root is that of the empty trie
      obtain rfl : t' = .nil := hresolves
      refine ⟨_, rfl, ?_⟩
      intro _
      have hget := TrieStore.get_writeRoot trie.store (Node.null.hash c).serialize
      exact ⟨.nil, ⟨⟨h.isReady, h.consistent.congr hget rfl, hn,
        fun _ _ _ hs => absurd hs (by simp [Patricia.Subtree]), rfl⟩, hl'⟩, hlookup,
        fun hash => .inl (hget hash)⟩
  | some node' =>
      obtain ⟨label, children, content, rfl, hsave, hwrites, hstored⟩ :=
        NodeResolves.save hresolves hn hl'
      simp only
      rw [Fallible.bind_ok (onStore_ok hsave)]
      refine ⟨_, rfl, ?_⟩
      intro hc
      have hget := TrieStore.get_writeRoot (trie.store.putAll c (node'.writes c))
        ((record c label children content).hash c).serialize
      have hc' : NoCollision c (trie.store.saved ++ node'.writes c) := by
        rw [← TrieStore.saved_putAll]
        exact hc
      have hst := hstored hc'
      -- each node below was written now or is in the store from before
      have hlogged : Logged c (trie.store.saved ++ node'.writes c)
          (.node label children content) := by
        intro label' children' content' hs
        rw [← TrieStore.saved_putAll]
        exact (hst label' children' content' hs).2
      refine ⟨_, ⟨⟨h.isReady, ?_, hn, hst.congr hget rfl, ?_⟩, hl'⟩, hlookup, ?_⟩
      · exact (h.consistent.putAll hn hl' hwrites hlogged hc').congr hget rfl
      · exact hash_record c label children content
      · intro hash
        rcases @TrieStore.get_putAll_cases c trie.store (node'.writes c) hash
          (fun n hmem => (hwrites n hmem).1) with ⟨-, hsame⟩ | ⟨n, hmem, hhash, -⟩
        · exact .inl ((hget hash).trans hsame)
        · rcases hwrites n hmem with ⟨-, label', children', content', hs, rfl⟩
          exact .inr ⟨label', children', content', hs, hhash⟩

/-- One operation goes through and changes the map as the reference does. -/
theorem Sound.apply (h : Sound c trie t) (op : Operation) :
    ∃ trie', op.apply c trie = .ok () trie' ∧
      (NoCollision c trie'.saved →
        ∃ t', Sound c trie' t' ∧ (∀ k, t'.lookup k = op.effect t.lookup k) ∧
          WritesOnly c trie trie' t') := by
  rcases h.root with ⟨node, t₀, hroot, hnode, hlookup, -⟩
  -- every operation computes a new root from the old one and saves it
  have hstep : ∀ (f : TrieStore → Result Node) node' t₁, f trie.store = .ok node' →
      NodeResolves c trie.store node' t₁ → (∀ k, t₁.lookup k = op.effect t.lookup k) →
      ∃ trie', (do MerklePatriciaTrie.save c (← reading f)) trie = .ok () trie' ∧
        (NoCollision c trie'.saved →
          ∃ t', Sound c trie' t' ∧ (∀ k, t'.lookup k = op.effect t.lookup k) ∧
            WritesOnly c trie trie' t') := by
    intro f node' t₁ hf hnode' hmap
    have hl : Patricia.Located Content.nibbles [] t₁ := by
      intro k content hk
      refine op.effect_located ?_ k content ((hmap k).symm.trans hk)
      intro k' content' hk'
      exact h.located k' content' hk'
    rcases h.save hnode' hl with ⟨trie', hsave, hsound⟩
    refine ⟨trie', ?_, ?_⟩
    · rw [Fallible.bind_ok (reading_ok hf), hsave]
    · intro hc
      rcases hsound hc with ⟨t', ht', hmap', hwrites⟩
      exact ⟨t', ht', fun k => (hmap' k).trans (hmap k), hwrites⟩
  cases op with
  | set content =>
      rcases hnode.set content.nibbles content with ⟨node', t₁, hset, hnode', hmap⟩
      obtain ⟨trie', htrie', hsound⟩ := hstep
        (fun store => node.set store content.nibbles content) node' t₁ hset hnode'
        (fun k => by simp only [hmap, hlookup, Operation.effect])
      refine ⟨trie', ?_, hsound⟩
      rw [Operation.apply, MerklePatriciaTrie.set, Fallible.bind_ok hroot]
      exact htrie'
  | delete key =>
      rcases hnode.delete (Key.bufferToKey key) with ⟨node', t₁, hdelete, hnode', hmap⟩
      obtain ⟨trie', htrie', hsound⟩ := hstep
        (fun store => node.delete store (Key.bufferToKey key)) node' t₁ hdelete hnode'
        (fun k => by simp only [hmap, hlookup, Operation.effect])
      refine ⟨trie', ?_, hsound⟩
      rw [Operation.apply, MerklePatriciaTrie.delete, Fallible.bind_ok hroot]
      exact htrie'
  | clear keyPrefix =>
      have hkey : (keyPrefix.map Key.bufferToKey).getD [] =
          Key.bufferToKey (keyPrefix.getD []) := by
        cases keyPrefix with
        | none => rfl
        | some keyPrefix => rfl
      obtain ⟨node', t₁, hclear, hnode', hmap⟩ :=
        hnode.clear (Key.bufferToKey (keyPrefix.getD []))
      obtain ⟨trie', htrie', hsound⟩ := hstep
        (fun store => node.clear store (Key.bufferToKey (keyPrefix.getD []))) node' t₁ hclear hnode'
        (fun k => by simp only [hmap, hlookup, Operation.effect])
      refine ⟨trie', ?_, hsound⟩
      rw [Operation.apply, MerklePatriciaTrie.clear, Fallible.bind_ok hroot, hkey]
      exact htrie'

/-! ## Whole runs -/

/-- A run: the trie is made ready and the calls follow one after another. A throw ends the run. -/
def run (c : Crypto) (ops : List Operation) : Action MerklePatriciaTrie Unit := do
  ready c
  Operation.applyAll c ops

/-- The reference map of a run. -/
def reference (ops : List Operation) : Bytes → Option Bytes :=
  ops.foldl (fun map op => op.update map) fun _ => none

theorem noCollision_singleton (c : Crypto) (node : Node) : NoCollision c [node] := by
  intro n hn n' hn' _
  rw [List.mem_singleton.mp hn, List.mem_singleton.mp hn']

/-- A fresh store has no root, so the empty node is saved. -/
theorem ready_new_eq {bytes : Bytes} (hbytes : Node.null.serialize = .ok bytes) :
    ready c (new c) = .ok ()
      ⟨(TrieStore.empty.put (Node.null.hash c) Node.null bytes).write TrieStore.rootKey
        (Node.null.hash c).serialize, Node.null.hash c, true⟩ := by
  have hset : onStore (TrieStore.set (Node.null.hash c) Node.null) (new c) = .ok ()
      { new c with store := TrieStore.empty.put (Node.null.hash c) Node.null bytes } := by
    refine onStore_ok ?_
    simp only [TrieStore.set, hbytes, new]
  have hroot : reading TrieStore.getRoot (new c) = .ok none (new c) := rfl
  have hnot : ¬ (new c).isReady = true := by simp [new]
  rw [ready, Fallible.get_bind, if_neg hnot, Fallible.bind_ok hroot]
  simp only
  rw [Fallible.bind_ok hset]
  rfl

/-- A fresh trie becomes ready, and is the empty tree. -/
theorem ready_new (c : Crypto) : ∃ trie, ready c (new c) = .ok () trie ∧ Sound c trie .nil := by
  obtain ⟨bytes, hbytes⟩ : TrieStore.Storable Node.null := ⟨_, rfl⟩
  have hget : ∀ hash, ((TrieStore.empty.put (Node.null.hash c) Node.null bytes).write
      TrieStore.rootKey (Node.null.hash c).serialize).get hash =
        (TrieStore.empty.put (Node.null.hash c) Node.null bytes).get hash :=
    TrieStore.get_writeRoot _ _
  refine ⟨_, ready_new_eq hbytes, ⟨rfl, Consistent.congr ?_ hget rfl, trivial, ?_, rfl⟩, ?_⟩
  -- one saved node is all there is
  · refine ⟨noCollision_singleton c Node.null, List.mem_singleton.mpr rfl, ?_, ?_⟩
    · intro node hnode
      exact .inl (List.mem_singleton.mp hnode)
    · intro node hnode
      obtain rfl := List.mem_singleton.mp hnode
      exact ⟨Node.null, hnode, by rw [TrieStore.get_put hbytes, if_pos rfl], rfl⟩
  · intro label children content hs
    exact absurd hs (by simp [Patricia.Subtree])
  · intro k content hk
    simp at hk

/-- Every run of operations from a sound trie goes through and follows the reference. -/
theorem Sound.applyAll {trie : MerklePatriciaTrie} {t : TrieTree} (h : Sound c trie t)
    (ops : List Operation)
    (hc : NoCollision c (Fallible.final (Operation.applyAll c ops trie)).saved) :
    ∃ trie' t', Operation.applyAll c ops trie = .ok () trie' ∧ Sound c trie' t' ∧
      ∀ key, (t'.lookup (Key.bufferToKey key)).map Content.value =
        ops.foldl (fun map op => op.update map)
          (fun key => (t.lookup (Key.bufferToKey key)).map Content.value) key := by
  induction ops generalizing trie t with
  | nil => exact ⟨trie, t, rfl, h, fun key => rfl⟩
  | cons op ops ih =>
      rcases h.apply op with ⟨trie₁, happly, hsound⟩
      have hrest : Operation.applyAll c (op :: ops) trie = Operation.applyAll c ops trie₁ := by
        rw [Operation.applyAll, Fallible.bind_ok happly]
      rw [hrest] at hc ⊢
      -- the rest saves more nodes, so what the first operation saves has no collision either
      obtain ⟨t₁, hsound₁, hmap₁, -⟩ := hsound
        (hc.mono (Operation.forward_applyAll c ops trie₁).1.subset)
      rcases ih hsound₁ hc with ⟨trie', t', hrun, hsound', hmap'⟩
      refine ⟨trie', t', hrun, hsound', ?_⟩
      intro key
      have hstep : (fun key => (t₁.lookup (Key.bufferToKey key)).map Content.value) =
          op.update fun key => (t.lookup (Key.bufferToKey key)).map Content.value := by
        funext key
        rw [hmap₁, Operation.effect_value]
      rw [hmap', hstep, List.foldl_cons]

theorem run_sound (ops : List Operation)
    (h : NoCollision c (Fallible.final (run c ops (new c))).saved) :
    ∃ trie t, run c ops (new c) = .ok () trie ∧ Sound c trie t ∧
      ∀ key, (t.lookup (Key.bufferToKey key)).map Content.value = reference ops key := by
  rcases ready_new c with ⟨trie₀, hready, hsound₀⟩
  have hrun : run c ops (new c) = Operation.applyAll c ops trie₀ := by
    rw [run, Fallible.bind_ok hready]
  rw [hrun] at h ⊢
  rcases hsound₀.applyAll ops h with ⟨trie, t, hops, hsound, hmap⟩
  exact ⟨trie, t, hops, hsound, hmap⟩

/-- On every run from a fresh trie no call throws and reads agree with the reference map. -/
theorem get_eq_reference (c : Crypto) (ops : List Operation)
    (h : NoCollision c (Fallible.final (run c ops (new c))).saved) :
    ∃ trie, run c ops (new c) = .ok () trie ∧
      ∀ key, get key trie = .ok (reference ops key) trie := by
  rcases run_sound ops h with ⟨trie, t, hrun, hsound, hmap⟩
  refine ⟨trie, hrun, ?_⟩
  intro key
  rw [hsound.get, hmap]

/-- A key, a longer one that starts with it, and one that parts from both at the first byte. -/
def cat : Content := ⟨[99, 97, 116], [1], by decide, by decide⟩
def catalog : Content := ⟨[99, 97, 116, 97], [2], by decide, by decide⟩
def dog : Content := ⟨[100, 111, 103], [3], by decide, by decide⟩

/-- A run that splits a node, extends one, merges two and clears in mid-label. -/
theorem get_eq_reference_catDog :
    ∃ trie, run .transparent [.set cat, .set dog, .set catalog, .delete dog.key, .clear (some [99])]
        (new .transparent) = .ok () trie ∧
      ∀ key, get key trie = .ok (reference
        [.set cat, .set dog, .set catalog, .delete dog.key, .clear (some [99])] key) trie :=
  get_eq_reference .transparent
    [.set cat, .set dog, .set catalog, .delete dog.key, .clear (some [99])] (by decide +kernel)

/-! ## The root as a commitment -/

/-- On located trees the values under byte keys decide the whole map. -/
theorem lookup_eq_of_values {t t' : TrieTree} (h : Patricia.Located Content.nibbles [] t)
    (h' : Patricia.Located Content.nibbles [] t')
    (hvalues : ∀ key, (t.lookup (Key.bufferToKey key)).map Content.value =
      (t'.lookup (Key.bufferToKey key)).map Content.value) (k : Key) :
    t.lookup k = t'.lookup k := by
  have hhalf : ∀ {s s' : TrieTree}, Patricia.Located Content.nibbles [] s →
      Patricia.Located Content.nibbles [] s' →
      (∀ key, (s.lookup (Key.bufferToKey key)).map Content.value =
        (s'.lookup (Key.bufferToKey key)).map Content.value) →
      ∀ content, s.lookup k = some content → s'.lookup k = some content := by
    intro s s' hs hs' hvals content hk
    have hkey : Key.bufferToKey content.key = k := hs k content hk
    have hval := hvals content.key
    rw [hkey, hk, Option.map_some] at hval
    rcases Option.map_eq_some_iff.mp hval.symm with ⟨content', hk', hvalue⟩
    have hkey' : Key.bufferToKey content'.key = k := hs' k content' hk'
    have hsame : content'.key = content.key :=
      Key.bufferToKey_injective (hkey'.trans hkey.symm)
    rw [hk', Content.ext hsame hvalue]
  refine Option.ext ?_
  intro content
  exact ⟨hhalf h h' hvalues content, hhalf h' h (fun key => (hvalues key).symm) content⟩

/-- Without a collision, two normal located trees with the same root hash are the same. -/
theorem eq_of_rootHashOf {nodes : List Node} {t t' : TrieTree} (hc : NoCollision c nodes)
    (hnull : Node.null ∈ nodes) (hn : t.Normal) (hn' : t'.Normal)
    (hl : Patricia.Located Content.nibbles [] t) (hl' : Patricia.Located Content.nibbles [] t')
    (hlogged : Logged c nodes t) (hlogged' : Logged c nodes t')
    (heq : rootHashOf c t = rootHashOf c t') : t = t' := by
  -- a node of a normal tree never has the hash of the null node
  have hne : ∀ label children content,
      (Patricia.node label children content).Normal →
      Logged c nodes (.node label children content) →
      rootHashOf c (.node label children content) ≠ rootHashOf c .nil := by
    intro label children content hn hlog heq
    rw [rootHashOf, Patricia.digest_node, Option.getD_some, ← hash_record c label] at heq
    exact preImage_record_ne hn
      (hc _ (hlog label children content (.inl rfl)) _ hnull heq)
  cases t with
  | nil =>
      cases t' with
      | nil => rfl
      | node label children content =>
          exact absurd heq.symm (hne label children content hn' hlogged')
  | node label children content =>
      cases t' with
      | nil => exact absurd heq (hne label children content hn hlogged)
      | node label' children' content' =>
          have hcontents := contents_eq_of_digest hc hlogged hlogged' (congrArg some heq)
          refine hn.eq_of_lookup hn' (hl.lookup_congr hl' ?_)
          intro content
          rw [hcontents]

/-- The roots of two tries agree exactly when their trees do. -/
theorem Sound.rootHash_eq_iff_tree {trie trie' : MerklePatriciaTrie} {t t' : TrieTree}
    (h : Sound c trie t) (h' : Sound c trie' t') (hc : NoCollision c (trie.saved ++ trie'.saved)) :
    trie.rootHash = trie'.rootHash ↔ t = t' := by
  have hlogged : Logged c (trie.saved ++ trie'.saved) t := fun label children content hs =>
    List.mem_append_left _ (h.stored label children content hs).2
  have hlogged' : Logged c (trie.saved ++ trie'.saved) t' := fun label children content hs =>
    List.mem_append_right _ (h'.stored label children content hs).2
  have hnull : Node.null ∈ trie.saved ++ trie'.saved :=
    List.mem_append_left _ h.consistent.null_mem
  rw [h.rootHash, h'.rootHash]
  constructor
  · exact eq_of_rootHashOf hc hnull h.normal h'.normal h.located h'.located hlogged hlogged'
  · intro heq
    rw [heq]

/-- Two runs from fresh tries end with the same root exactly when they end with the same map. -/
theorem rootHash_eq_iff (c : Crypto) (ops ops' : List Operation)
    (h : NoCollision c ((Fallible.final (run c ops (new c))).saved ++
      (Fallible.final (run c ops' (new c))).saved)) :
    ∃ trie trie', run c ops (new c) = .ok () trie ∧ run c ops' (new c) = .ok () trie' ∧
      (trie.rootHash = trie'.rootHash ↔
        ∀ key, ∃ value, get key trie = .ok value trie ∧ get key trie' = .ok value trie') := by
  rcases run_sound ops (h.mono (List.subset_append_left _ _)) with ⟨trie, t, hrun, hsound, -⟩
  rcases run_sound ops' (h.mono (List.subset_append_right _ _)) with ⟨trie', t', hrun', hsound', -⟩
  rw [hrun, hrun'] at h
  refine ⟨trie, trie', hrun, hrun', ?_⟩
  rw [hsound.rootHash_eq_iff_tree hsound' h]
  constructor
  · rintro rfl key
    exact ⟨_, hsound.get key, hsound'.get key⟩
  · intro hget
    refine hsound.normal.eq_of_lookup hsound'.normal
      (lookup_eq_of_values hsound.located hsound'.located ?_)
    intro key
    rcases hget key with ⟨value, hvalue, hvalue'⟩
    rw [hsound.get] at hvalue
    rw [hsound'.get] at hvalue'
    exact (EStateM.Result.ok.inj hvalue).1.trans (EStateM.Result.ok.inj hvalue').1.symm

/-- Two orders of setting the same keys, one of which also sets and deletes a third. -/
theorem rootHash_eq_iff_catDog :
    ∃ trie trie', run .transparent [.set cat, .set dog] (new .transparent) = .ok () trie ∧
      run .transparent [.set dog, .set catalog, .set cat, .delete catalog.key]
        (new .transparent) = .ok () trie' ∧
      (trie.rootHash = trie'.rootHash ↔
        ∀ key, ∃ value, get key trie = .ok value trie ∧ get key trie' = .ok value trie') :=
  rootHash_eq_iff .transparent [.set cat, .set dog]
    [.set dog, .set catalog, .set cat, .delete catalog.key] (by decide +kernel)

end MerklePatriciaTrie

end UniqysKit
