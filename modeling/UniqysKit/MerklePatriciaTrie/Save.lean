import UniqysKit.MerklePatriciaTrie.Representation

/-!
# Saving

What `Node.save` writes, and why the tree it saves can be read back.  The nodes in memory are
written under hashes that do not cover their labels, so a write can hit an entry that is already
there.  Inside one normal tree whose contents know their keys this is harmless: two nodes of the
tree with the same hash are the same node.  Nothing of the kind holds between two trees.
-/

namespace UniqysKit

open Library

/-- No two of the nodes have the same hash for different child hashes or contents. -/
def NoCollision (c : Crypto) (nodes : List Node) : Prop :=
  ∀ node ∈ nodes, ∀ node' ∈ nodes, node.hash c = node'.hash c → node.preImage c = node'.preImage c

instance (c : Crypto) (nodes : List Node) : Decidable (NoCollision c nodes) :=
  inferInstanceAs (Decidable (∀ node ∈ nodes, ∀ node' ∈ nodes, node.hash c = node'.hash c →
    node.preImage c = node'.preImage c))

theorem NoCollision.mono {c : Crypto} {nodes nodes' : List Node} (h : NoCollision c nodes')
    (hsub : nodes ⊆ nodes') : NoCollision c nodes := by
  intro node hnode node' hnode' heq
  exact h node (hsub hnode) node' (hsub hnode') heq

/-! ## The list of writes -/

namespace TrieStore

/-- The store after some nodes were set under their hashes, in order. -/
def putAll (c : Crypto) (st : TrieStore) (nodes : List Node) : TrieStore :=
  nodes.foldl (fun st node => st.put (node.hash c) node ((node.serialize.toOption).getD [])) st

variable {c : Crypto}

@[simp] theorem putAll_append (st : TrieStore) (nodes nodes' : List Node) :
    st.putAll c (nodes ++ nodes') = (st.putAll c nodes).putAll c nodes' := by
  simp [putAll]

theorem saved_putAll (st : TrieStore) (nodes : List Node) :
    (st.putAll c nodes).saved = st.saved ++ nodes := by
  induction nodes generalizing st with
  | nil => simp [putAll]
  | cons node nodes ih =>
      rw [← List.singleton_append, putAll_append, ih]
      simp [putAll, put, write]

/-- A node that can be serialized. -/
def Storable (node : Node) : Prop := ∃ bytes, node.serialize = .ok bytes

/-- An entry that all writes to its hash agree on. -/
theorem get_putAll {st : TrieStore} {nodes : List Node} {node : Node}
    (hs : ∀ n ∈ nodes, Storable n) (hagree : ∀ n ∈ nodes, n.hash c = node.hash c → n = node)
    (h : node ∈ nodes ∨ st.get (node.hash c) = .ok node) :
    (st.putAll c nodes).get (node.hash c) = .ok node := by
  induction nodes generalizing st with
  | nil => simpa [putAll] using h
  | cons first nodes ih =>
      rcases hs first (by simp) with ⟨bytes, hbytes⟩
      rw [← List.singleton_append, putAll_append]
      refine ih (fun n hn => hs n (by simp [hn])) (fun n hn => hagree n (by simp [hn])) ?_
      simp only [putAll, List.foldl_cons, List.foldl_nil, hbytes, Except.toOption, Option.getD_some]
      rw [get_put hbytes]
      by_cases hfirst : node.hash c = first.hash c
      · right
        rw [if_pos hfirst, hagree first (by simp) hfirst.symm]
      · rw [if_neg hfirst]
        rcases h with h | h
        · rcases List.mem_cons.mp h with rfl | h
          · exact absurd rfl hfirst
          · exact .inl h
        · exact .inr h

/-- Whatever is written, an entry is one of the writes to its hash, or the old entry if there was no
such write. -/
theorem get_putAll_cases {st : TrieStore} {nodes : List Node} (hash : Hash)
    (hs : ∀ n ∈ nodes, Storable n) :
    ((∀ n ∈ nodes, n.hash c ≠ hash) ∧ (st.putAll c nodes).get hash = st.get hash) ∨
      ∃ n ∈ nodes, n.hash c = hash ∧ (st.putAll c nodes).get hash = .ok n := by
  induction nodes generalizing st with
  | nil => exact .inl ⟨by simp, rfl⟩
  | cons first nodes ih =>
      rcases hs first (by simp) with ⟨bytes, hbytes⟩
      rw [← List.singleton_append, putAll_append]
      rcases @ih (st.putAll c [first]) (fun n hn => hs n (by simp [hn])) with
        ⟨hne, hsame⟩ | ⟨n, hn, hh, hget⟩
      · rw [hsame]
        simp only [putAll, List.foldl_cons, List.foldl_nil, hbytes, Except.toOption,
          Option.getD_some]
        rw [get_put hbytes]
        by_cases hfirst : hash = first.hash c
        · exact .inr ⟨first, by simp, hfirst.symm, if_pos hfirst⟩
        · refine .inl ⟨?_, if_neg hfirst⟩
          simpa [Ne.symm hfirst] using hne
      · exact .inr ⟨n, by simp [hn], hh, hget⟩

end TrieStore

/-- The nodes `save` stores, children before parents. -/
def Child.writes (c : Crypto) : Child → List Node
  | .none => []
  | .ofHash _ => []
  | .ofNode keyPrefix children content =>
      ((List.finRange 16).flatMap fun i => (children i).writes c) ++
        [⟨keyPrefix, fun i => Child.ofOptionalHash ((children i).hash c), content⟩]

/-- The form in which `save` stores a node: its children become hashes. -/
def Node.toStored (c : Crypto) (node : Node) : Node :=
  ⟨node.keyPrefix, fun i => Child.ofOptionalHash ((node.children i).hash c), node.content⟩

def Node.writes (c : Crypto) (node : Node) : List Node :=
  ((List.finRange 16).flatMap fun i => (node.children i).writes c) ++ [node.toStored c]

theorem Child.hash_ofOptionalHash (c : Crypto) (hash : Option Hash) :
    (Child.ofOptionalHash hash).hash c = hash := by
  cases hash with
  | none => rfl
  | some hash => rfl

section Writes

variable {c : Crypto} {st : TrieStore}

/-- Actions that store given nodes, run one after another. -/
theorem promiseAll_putAll {α : Type} {n : Nat} {f : Fin n → Action TrieStore α} {g : Fin n → α}
    {nodes : Fin n → List Node} (h : ∀ i st, f i st = .ok (g i) (st.putAll c (nodes i)))
    (st : TrieStore) :
    promiseAll f st = .ok g (st.putAll c ((List.finRange n).flatMap nodes)) := by
  induction n generalizing st with
  | zero =>
      simp only [promiseAll, List.finRange_zero, List.flatMap_nil]
      have : (Fin.elim0 : Fin 0 → α) = g := funext fun i => i.elim0
      rw [this]
      rfl
  | succ n ih =>
      rw [promiseAll, Fallible.bind_ok (h 0 st), Fallible.bind_ok (ih (fun i => h i.succ) _),
        List.finRange_succ, List.flatMap_cons, List.flatMap_map, TrieStore.putAll_append]
      simp only [pure, EStateM.pure]
      congr 1
      exact Fin.cons_self_tail g

theorem Node.store_eq {keyPrefix : Key} {children : Fin 16 → Option Hash}
    {content : Option Content} {node : Node}
    (hnode : node = ⟨keyPrefix, fun i => Child.ofOptionalHash (children i), content⟩)
    (hs : TrieStore.Storable node) (st : TrieStore) :
    Node.store c keyPrefix children content st = .ok node (st.putAll c [node]) := by
  rcases hs with ⟨bytes, hbytes⟩
  subst hnode
  have hset : TrieStore.set (Node.hash c ⟨keyPrefix, fun i => Child.ofOptionalHash (children i),
      content⟩) ⟨keyPrefix, fun i => Child.ofOptionalHash (children i), content⟩ st =
        .ok () (st.putAll c [⟨keyPrefix, fun i => Child.ofOptionalHash (children i), content⟩]) := by
    simp only [TrieStore.set, hbytes, TrieStore.putAll, List.foldl_cons, List.foldl_nil,
      Except.toOption, Option.getD_some]
  rw [Node.store, Fallible.bind_ok hset]
  rfl

theorem Child.save_eq {child : Child} (hs : ∀ n ∈ child.writes c, TrieStore.Storable n)
    (st : TrieStore) : child.save c st = .ok (child.hash c) (st.putAll c (child.writes c)) := by
  induction child generalizing st with
  | none => rfl
  | ofHash hash => rfl
  | ofNode keyPrefix children content ih =>
      have hbelow : ∀ i n, n ∈ (children i).writes c → TrieStore.Storable n := by
        intro i n hn
        refine hs n ?_
        simp only [Child.writes, List.mem_append, List.mem_flatMap, List.mem_finRange, true_and]
        exact .inl ⟨i, hn⟩
      have hself : TrieStore.Storable
          (⟨keyPrefix, fun i => Child.ofOptionalHash ((children i).hash c), content⟩ : Node) := by
        refine hs _ ?_
        simp [Child.writes]
      rw [Child.save, Fallible.bind_ok (promiseAll_putAll (fun i st => ih i (hbelow i) st) st),
        Fallible.bind_ok (Node.store_eq rfl hself _), Child.writes, TrieStore.putAll_append]
      simp only [pure, EStateM.pure, Child.hash, Node.hash, Node.preImage,
        Child.hash_ofOptionalHash]

theorem Node.save_eq {node : Node} (hs : ∀ n ∈ node.writes c, TrieStore.Storable n)
    (st : TrieStore) : node.save c st = .ok (node.toStored c) (st.putAll c (node.writes c)) := by
  have hbelow : ∀ i n, n ∈ (node.children i).writes c → TrieStore.Storable n := by
    intro i n hn
    refine hs n ?_
    simp only [Node.writes, List.mem_append, List.mem_flatMap, List.mem_finRange, true_and]
    exact .inl ⟨i, hn⟩
  have hself : TrieStore.Storable (node.toStored c) := hs _ (by simp [Node.writes])
  rw [Node.save, Fallible.bind_ok (promiseAll_putAll (fun i st => Child.save_eq (hbelow i) st) st),
    Node.store_eq rfl hself, Node.writes, TrieStore.putAll_append]
  rfl

/-! ## What is written belongs to the tree -/

theorem refOf_eq_ofOptionalHash {child : Child} {t : TrieTree} (h : Resolves c st child t) :
    Child.ofOptionalHash (child.hash c) = refOf c t := by
  rw [h.hash, refOf]

theorem Resolves.record_of_mem_writes {child : Child} {t : TrieTree} (h : Resolves c st child t)
    {node : Node} (hnode : node ∈ child.writes c) :
    ∃ label children content, Patricia.Subtree (.node label children content) t ∧
      node = record c label children content := by
  induction child generalizing t with
  | none => simp [Child.writes] at hnode
  | ofHash hash => simp [Child.writes] at hnode
  | ofNode keyPrefix children content ih =>
      rcases h with ⟨below, rfl, hbelow⟩
      simp only [Child.writes, List.mem_append, List.mem_flatMap, List.mem_finRange, true_and,
        List.mem_singleton] at hnode
      rcases hnode with ⟨i, hnode⟩ | rfl
      · rcases ih i (hbelow i) hnode with ⟨label, children', content', hs, rfl⟩
        exact ⟨label, children', content', .inr ⟨i, hs⟩, rfl⟩
      · refine ⟨keyPrefix, below, content, .inl rfl, ?_⟩
        simp only [record, refOf_eq_ofOptionalHash (hbelow _)]

/-- Every node of the tree is either written by `save` or stored already. -/
theorem Resolves.mem_writes_or_stored {child : Child} {t : TrieTree} (h : Resolves c st child t)
    {label : Key} {children : Fin 16 → TrieTree} {content : Option Content}
    (hs : Patricia.Subtree (.node label children content) t) :
    record c label children content ∈ child.writes c ∨
      (st.get ((record c label children content).hash c) = .ok (record c label children content) ∧
        record c label children content ∈ st.saved) := by
  induction child generalizing t with
  | none =>
      subst h
      exact absurd hs (by simp [Patricia.Subtree])
  | ofHash hash => exact .inr (h.2.1 label children content hs)
  | ofNode keyPrefix children' content' ih =>
      rcases h with ⟨below, rfl, hbelow⟩
      simp only [Child.writes, List.mem_append, List.mem_flatMap, List.mem_finRange, true_and,
        List.mem_singleton]
      rcases hs with heq | ⟨i, hs⟩
      · rcases Patricia.node.inj heq with ⟨rfl, rfl, rfl⟩
        refine .inl (.inr ?_)
        simp only [record, refOf_eq_ofOptionalHash (hbelow _)]
      · rcases ih i (hbelow i) hs with hw | hstored
        · exact .inl (.inl ⟨i, hw⟩)
        · exact .inr hstored

/-- A node whose label fits below the keys of its contents can be serialized. -/
theorem storable_record {path label : Key} {children : Fin 16 → TrieTree}
    {content : Option Content} (hn : (Patricia.node label children content).Normal)
    (hl : Patricia.Located Content.nibbles path (.node label children content)) :
    TrieStore.Storable (record c label children content) := by
  -- a label is part of a key, which has a length that the format can express
  have hlength : label.length < 2 ^ 32 := by
    rcases hn.exists_lookup (by simp) with ⟨key, content', hkey⟩
    have hle := (Patricia.label_prefix_of_lookup hkey).length_le
    have hnibbles := congrArg List.length (hl key content' hkey)
    have hlt := content'.key_lt
    rw [Content.nibbles, Key.length_bufferToKey, List.length_append] at hnibbles
    omega
  have hchild : ∀ child ∈ (List.finRange 16).map (record c label children content).children,
      ∃ bytes, Child.serialize child = .ok bytes := by
    intro child hchild
    rcases List.mem_map.mp hchild with ⟨i, -, rfl⟩
    simp only [record]
    cases children i with
    | nil => exact ⟨_, rfl⟩
    | node label' children' content' => exact ⟨_, rfl⟩
  rcases Result.mapM_ok hchild with ⟨bytes, hbytes⟩
  have hcontent : ∃ bytes, Optional.serialize Content.serialize content = .ok bytes := by
    cases content with
    | none => exact ⟨_, rfl⟩
    | some content => exact ⟨_, by simp [Optional.serialize, Content.serialize_eq]; rfl⟩
  rcases hcontent with ⟨bytes', hbytes'⟩
  simp only [TrieStore.Storable, Node.serialize, hbytes,
    show (record c label children content).keyPrefix = label from rfl,
    show (record c label children content).content = content from rfl,
    UInt32.serialize_of_lt hlength, hbytes', Result.ok_bind]
  exact ⟨_, rfl⟩

/-! ## Reading back what was saved -/

/-- All nodes of the tree were stored at some time. -/
def Logged (c : Crypto) (nodes : List Node) (t : TrieTree) : Prop :=
  ∀ label children content, Patricia.Subtree (.node label children content) t →
    record c label children content ∈ nodes

/-- Among stored nodes without a collision, the hash of a tree determines its contents. -/
theorem contents_eq_of_digest {nodes : List Node} (hc : NoCollision c nodes) {t t' : TrieTree}
    (h : Logged c nodes t) (h' : Logged c nodes t')
    (hdigest : t.digest (combine c) = t'.digest (combine c)) : t.contents = t'.contents := by
  have hcovered : ∀ s : TrieTree, Logged c nodes s →
      Patricia.Covered (combine c) {image | ∃ node ∈ nodes, node.preImage c = image} s := by
    intro s hs label children content hsub
    exact ⟨_, hs label children content hsub, preImage_record c label children content⟩
  refine Patricia.contents_eq_of_digest ?_ (hcovered t h) (hcovered t' h') hdigest
  rintro _ ⟨node, hnode, rfl⟩ _ ⟨node', hnode', rfl⟩ heq
  exact hc node hnode node' hnode' heq

/-- Two nodes of one tree with the same hash are the same node. -/
theorem subtree_eq_of_hash {nodes : List Node} (hc : NoCollision c nodes) {path : Key}
    {s s' t : TrieTree} (ht : Logged c nodes t) (hn : t.Normal)
    (hl : Patricia.Located Content.nibbles path t) (hs : Patricia.Subtree s t)
    (hs' : Patricia.Subtree s' t) (hdigest : s.digest (combine c) = s'.digest (combine c)) :
    s = s' := by
  have hlogged : ∀ r : TrieTree, Patricia.Subtree r t → Logged c nodes r := by
    intro r hr label children content hsub
    exact ht label children content (hsub.trans hr)
  have hcontents := contents_eq_of_digest hc (hlogged s hs) (hlogged s' hs') hdigest
  refine Patricia.subtree_eq_of_contents hn hl hs hs' ?_
  intro content
  rw [hcontents]

/-- Two nodes with the same hash, of one tree or two, differ at most in their labels. -/
theorem below_eq_of_hash {nodes : List Node} (hc : NoCollision c nodes) {path path' label label' : Key}
    {children children' : Fin 16 → TrieTree} {content content' : Option Content}
    (hlogged : Logged c nodes (.node label children content))
    (hlogged' : Logged c nodes (.node label' children' content'))
    (hn : (Patricia.node label children content).Normal)
    (hn' : (Patricia.node label' children' content').Normal)
    (hl : Patricia.Located Content.nibbles path (.node label children content))
    (hl' : Patricia.Located Content.nibbles path' (.node label' children' content'))
    (hhash : (record c label children content).hash c = (record c label' children' content').hash c) :
    children = children' ∧ content = content' := by
  have hdigest : (Patricia.node label children content).digest (combine c) =
      (Patricia.node label' children' content').digest (combine c) := by
    rw [Patricia.digest_node, Patricia.digest_node, ← hash_record c label, ← hash_record c label',
      hhash]
  have hcontents := contents_eq_of_digest hc hlogged hlogged' hdigest
  exact (Patricia.node_eq_of_contents hn hn' hl hl' fun content => by rw [hcontents]).2

/-- Saving stores the tree, if no two saved nodes collide. -/
theorem NodeResolves.save {node : Node} {t : TrieTree} (h : NodeResolves c st node t)
    (hn : t.Normal) {path : Key} (hl : Patricia.Located Content.nibbles path t) :
    ∃ label children content, t = .node label children content ∧
      node.save c st = .ok (record c label children content) (st.putAll c (node.writes c)) ∧
      (∀ n ∈ node.writes c, TrieStore.Storable n ∧
        ∃ label children content, Patricia.Subtree (.node label children content) t ∧
          n = record c label children content) ∧
      (NoCollision c (st.saved ++ node.writes c) → Stored c (st.putAll c (node.writes c)) t) := by
  have hchild := h.toChild
  have hwrites : ∀ n ∈ node.writes c, TrieStore.Storable n ∧
      ∃ label children content, Patricia.Subtree (.node label children content) t ∧
        n = record c label children content := by
    intro n hmem
    rcases hchild.record_of_mem_writes hmem with ⟨label, children, content, hs, rfl⟩
    rcases hs.located hl with ⟨path', hl'⟩
    exact ⟨storable_record (hs.normal hn) hl', label, children, content, hs, rfl⟩
  -- a node that is not written now was saved before
  have hlogged : Logged c (st.saved ++ node.writes c) t := by
    intro label children content hs
    rcases hchild.mem_writes_or_stored hs with hw | ⟨-, hsaved⟩
    · exact List.mem_append_right _ hw
    · exact List.mem_append_left _ hsaved
  rcases h with ⟨below, rfl, hbelow⟩
  refine ⟨node.keyPrefix, below, node.content, rfl, ?_, hwrites, ?_⟩
  · rw [Node.save_eq fun n hmem => (hwrites n hmem).1]
    congr 1
    simp only [Node.toStored, record, refOf_eq_ofOptionalHash (hbelow _)]
  · intro hc label children content hs
    refine ⟨?_, ?_⟩
    · refine TrieStore.get_putAll (fun n hmem => (hwrites n hmem).1) ?_ ?_
      · intro n hmem hhash
        rcases hwrites n hmem with ⟨-, label', children', content', hs', rfl⟩
        rw [hash_record, hash_record] at hhash
        -- two writes under one hash are of the same node, so the order does not matter
        have heq := subtree_eq_of_hash hc hlogged hn hl hs' hs (by simpa using hhash)
        rcases Patricia.node.inj heq with ⟨rfl, rfl, rfl⟩
        rfl
      · exact (hchild.mem_writes_or_stored hs).imp_right And.left
    · rw [TrieStore.saved_putAll]
      exact hlogged label children content hs

end Writes

end UniqysKit
