import UniqysKit.MerklePatriciaTrie.NodeReads

/-!
# What an operation depends on

Two stores agree from a node on when they have the same nodes below it.  An operation on a trie reads
the nodes of its version and no others, and its new nodes refer to each other and to nodes of that
version.  So on two stores that agree from the root on it does the same, and they agree again from the
new root on, whatever else is in them.
-/

namespace UniqysKit

open Library

/-- The hashes of the nodes that reading from `root` can come across. -/
inductive NodeOf (st : TrieStore) (root : Hash) : Hash → Prop
  | root : NodeOf st root root
  | child {hash hash' : Hash} {node : Node} {i : Fin 16} : NodeOf st root hash →
      st.get hash = .ok node → node.children i = .ofHash hash' → NodeOf st root hash'

namespace TrieStore

/-- Reading from the hash comes across the same in both stores. -/
def Agrees (st st' : TrieStore) (hash : Hash) : Prop :=
  ∀ hash', NodeOf st hash hash' → st'.get hash' = st.get hash'

end TrieStore

/-- The hashes that the child refers to, by itself or by nodes in memory. -/
def Child.Within (P : Hash → Prop) : Child → Prop
  | .none => True
  | .ofHash hash => P hash
  | .ofNode _ children _ => ∀ i, (children i).Within P

def Node.Within (P : Hash → Prop) (node : Node) : Prop := ∀ i, (node.children i).Within P

/-! ## Reading -/

section Reading

variable {st st' : TrieStore} {hash hash' : Hash} {node : Node}

theorem NodeOf.trans {hash'' : Hash} (h : NodeOf st hash hash') (h' : NodeOf st hash' hash'') :
    NodeOf st hash hash'' := by
  induction h' with
  | root => exact h
  | child _ hget hchild ih => exact .child ih hget hchild

theorem TrieStore.Agrees.get (h : st.Agrees st' hash) : st'.get hash = st.get hash := h hash .root

theorem TrieStore.Agrees.below (h : st.Agrees st' hash) (hnode : NodeOf st hash hash') :
    st.Agrees st' hash' :=
  fun _ hbelow => h _ (hnode.trans hbelow)

/-- A node that is read refers to stored nodes, on which the stores agree. -/
theorem TrieStore.Agrees.within (h : st.Agrees st' hash) (hget : st.get hash = .ok node) :
    node.Within (st.Agrees st') := by
  intro i
  have href : ∃ hash', node.children i = Child.ofOptionalHash hash' := by
    have hread := hget
    unfold TrieStore.get at hread
    split at hread
    · simp only [Result.bind_eq_ok] at hread
      rcases hread with ⟨⟨node', rest⟩, hdeserialize, hnode'⟩
      cases hnode'
      exact Node.deserialize_isRef hdeserialize i
    · cases hread
  rcases href with ⟨hash', hchild⟩
  rw [hchild]
  cases hash' with
  | none => trivial
  | some hash' => exact h.below (.child .root hget hchild)

end Reading

/-! ## Where the reads of an operation stay -/

section Confined

variable {P : Hash → Prop} {node : Node}

/-- The code reads nodes with `P` only, as long as nodes that are read refer to such nodes. -/
abbrev NodeCode.Confined {α : Type} (P : Hash → Prop) (Q : α → Prop) (code : NodeCode α) : Prop :=
  Program.Confined P (fun _ node => node.Within P) Q code

theorem Child.dereferenceCode_confined {child : Child} {code : NodeCode Node}
    (h : child.Within P) (hcode : child.dereferenceCode = some code) :
    NodeCode.Confined P (Node.Within P) code := by
  cases child with
  | none => cases hcode
  | ofHash hash =>
      cases hcode
      exact ⟨h, fun _ hnode => hnode⟩
  | ofNode keyPrefix children content =>
      cases hcode
      exact h

theorem Node.Within.update {keyPrefix : Key} {content : Option Content} (h : node.Within P)
    (letter : Fin 16) {child : Child} (hchild : child.Within P) :
    Node.Within P ⟨keyPrefix, Function.update node.children letter child, content⟩ := by
  intro i
  by_cases hi : i = letter
  · subst hi
    simpa using hchild
  · simpa [Function.update_of_ne hi] using h i

theorem Node.within_emptyBranch (keyPrefix : Key) (content : Option Content) :
    Node.Within P ⟨keyPrefix, emptyBranch, content⟩ := fun _ => trivial

theorem Node.getCode_confined (h : node.Within P) (key : Key) :
    NodeCode.Confined P (fun _ => True) (node.getCode key) := by
  fun_induction Node.getCode node key with
  | case1 => trivial
  | case2 => trivial
  | case3 =>
      rename_i node key _ letter rest hrest hremain child hchild ih
      exact (Child.dereferenceCode_confined (h letter) hchild).bind fun next hnext => ih next hnext
  | case4 => trivial

theorem Node.setCode_confined (h : node.Within P) (key : Key) (content : Content) :
    NodeCode.Confined P (Node.Within P) (node.setCode key content) := by
  fun_induction Node.setCode node key content with
  | case1 => exact h
  | case2 =>
      rename_i node key _ letter rest hremain hrest _ child hchild ih
      exact (Child.dereferenceCode_confined (h letter) hchild).bind fun next hnext =>
        (ih next hnext).bind fun next' hnext' => h.update letter hnext'
  | case3 =>
      rename_i node key _ letter rest hremain hrest _ hchild
      exact h.update letter (Node.within_emptyBranch rest (some content))
  | case4 =>
      rename_i node key matchResult letter rest hremain moved ih
      exact ih ((Node.within_emptyBranch matchResult.keyPrefix none).update letter h)

theorem Node.deleteCode_confined (h : node.Within P) (key : Key) :
    NodeCode.Confined P (Node.Within P) (node.deleteCode key) := by
  fun_induction Node.deleteCode node key with
  | case1 => exact h
  | case2 =>
      rename_i node key _ letter rest hrest hremain _ child hchild ih
      exact (Child.dereferenceCode_confined (h letter) hchild).bind fun next hnext =>
        (ih next hnext).bind fun next' hnext' => h.update letter hnext'
  | case3 =>
      rename_i node key _ letter rest hrest hremain _ hchild
      exact h.update letter trivial
  | case4 => exact h

theorem Node.clearCode_confined (h : node.Within P) (key : Key) :
    NodeCode.Confined P (Node.Within P) (node.clearCode key) := by
  fun_induction Node.clearCode node key with
  | case1 => exact fun _ => trivial
  | case2 =>
      rename_i node key _ letter rest hrest hremain _ child hchild ih
      exact (Child.dereferenceCode_confined (h letter) hchild).bind fun next hnext =>
        (ih next hnext).bind fun next' hnext' => h.update letter hnext'
  | case3 =>
      rename_i node key _ letter rest hrest hremain _ hchild
      exact h.update letter trivial
  | case4 => exact h

theorem Child.within_ofOptionalNode {node : Option Node} (h : ∀ n, node = some n → n.Within P) :
    (Child.ofOptionalNode node).Within P := by
  cases node with
  | none => trivial
  | some node => exact h node rfl

theorem promiseAll_confined {α : Type} {Q : α → Prop} {n : Nat} {f : Fin n → NodeCode α}
    (h : ∀ i, NodeCode.Confined P Q (f i)) :
    NodeCode.Confined P (fun g => ∀ i, Q (g i)) (promiseAll f) := by
  induction n with
  | zero => exact fun i => i.elim0
  | succ n ih =>
      refine (h 0).bind fun first hfirst => (ih fun i => h i.succ).bind fun rest hrest => ?_
      exact fun i => Fin.cases hfirst hrest i

theorem Node.collapseCode_confined {keyPrefix : Key} {children : Fin 16 → Child}
    {content : Option Content} (h : ∀ i, (children i).Within P) :
    NodeCode.Confined P (fun result => ∀ node, result = some node → node.Within P)
      (collapseCode keyPrefix children content) := by
  unfold collapseCode
  split
  · exact nofun
  · rename_i index ref hexisting
    -- the one child that is left is read
    have hmem : (index, ref) ∈ existingChildrenCode children := by
      rw [hexisting]
      exact List.mem_singleton_self _
    rcases List.mem_filterMap.mp hmem with ⟨i, -, hi⟩
    rcases Option.map_eq_some_iff.mp hi with ⟨code, hcode, heq⟩
    cases heq
    refine (Child.dereferenceCode_confined (h index) hcode).bind ?_
    rintro child hchild node ⟨⟩
    exact hchild
  · rintro node ⟨⟩
    exact h

theorem Child.normalizeCode_confined {child : Child} (h : child.Within P) :
    NodeCode.Confined P (Child.Within P) child.normalizeCode := by
  induction child with
  | none => trivial
  | ofHash hash => exact h
  | ofNode keyPrefix children content ih =>
      exact (promiseAll_confined fun i => ih i (h i)).bind fun children hchildren =>
        (Node.collapseCode_confined hchildren).bind fun node hnode => within_ofOptionalNode hnode

theorem Node.normalizeCode_confined (h : node.Within P) :
    NodeCode.Confined P (fun result => ∀ node, result = some node → node.Within P)
      node.normalizeCode :=
  (promiseAll_confined fun i => Child.normalizeCode_confined (h i)).bind fun _ hchildren =>
    collapseCode_confined hchildren

theorem Operation.code_confined (op : Operation) (h : node.Within P) :
    NodeCode.Confined P (Node.Within P) (op.code node) := by
  cases op with
  | set content => exact Node.setCode_confined h _ content
  | delete key => exact Node.deleteCode_confined h _
  | clear keyPrefix => exact Node.clearCode_confined h _

/-- Code that reads where the stores agree comes to the same, and what it comes to refers to nodes on
which they agree. -/
theorem NodeCode.Confined.eval_eq {α : Type} {st st' : TrieStore} {Q : α → Prop} {code : NodeCode α}
    (h : code.Confined (st.Agrees st') Q) :
    code.eval st'.get = code.eval st.get ∧ ∀ a, code.eval st.get = .ok a → Q a :=
  Program.Confined.eval_eq h fun _ hagrees => ⟨hagrees.get, fun _ hget => hagrees.within hget⟩

/-- Reading below a node needs nothing but the nodes it refers to. -/
theorem Node.Within.get_congr {st st' : TrieStore} (h : node.Within (st.Agrees st')) (key : Key) :
    node.get st' key = node.get st key := by
  rw [← Node.getCode_eval, ← Node.getCode_eval]
  exact (Node.getCode_confined h key).eval_eq.1

end Confined

/-! ## Saving -/

namespace TrieStore

/-- The second pair of stores agrees wherever the first does. -/
def Keeps (st st' s s' : TrieStore) : Prop := ∀ hash, st.Agrees st' hash → s.Agrees s' hash

variable {st st' s s' : TrieStore}

theorem Keeps.refl (st st' : TrieStore) : Keeps st st' st st' := fun _ => id

theorem Keeps.trans {t t' : TrieStore} (h : Keeps st st' s s') (h' : Keeps s s' t t') :
    Keeps st st' t t' := fun hash hagrees => h' hash (h hash hagrees)

/-- What is the same in both stores and refers to the like. -/
theorem agrees_of_closed {P : Hash → Prop} (hget : ∀ hash, P hash → st'.get hash = st.get hash)
    (hclosed : ∀ hash node, P hash → st.get hash = .ok node → node.Within P) {hash : Hash}
    (h : P hash) : st.Agrees st' hash := by
  intro hash' hnode
  have hP : P hash' := by
    induction hnode with
    | root => exact h
    | child _ hread hchild ih =>
        have hwithin := hclosed _ _ ih hread
        have := hwithin ‹_›
        rwa [hchild] at this
  exact hget hash' hP

end TrieStore

theorem Child.Within.mono {P Q : Hash → Prop} {child : Child} (h : child.Within P)
    (hPQ : ∀ hash, P hash → Q hash) : child.Within Q := by
  induction child with
  | none => trivial
  | ofHash hash => exact hPQ hash h
  | ofNode keyPrefix children content ih => exact fun i => ih i (h i)

theorem Child.within_ofOptionalHash {P : Hash → Prop} {hash : Option Hash}
    (h : ∀ hash', hash = some hash' → P hash') : (Child.ofOptionalHash hash).Within P := by
  cases hash with
  | none => trivial
  | some hash => exact h hash rfl

section Saving

variable {c : Crypto} {st st' : TrieStore}

theorem TrieStore.set_alongside (hash : Hash) {node : Node} (h : node.Within (st.Agrees st')) :
    Fallible.Alongside (TrieStore.set hash node) (TrieStore.set hash node) st st'
      (fun _ s s' => Keeps st st' s s' ∧ s.Agrees s' hash) (Keeps st st') := by
  unfold TrieStore.set Fallible.Alongside
  cases hbytes : node.serialize with
  | error e => exact ⟨rfl, .refl st st'⟩
  | ok bytes =>
      have hagrees : ∀ hash', st.Agrees st' hash' ∨ hash' = hash →
          (st.put hash node bytes).Agrees (st'.put hash node bytes) hash' := by
        intro hash'
        refine agrees_of_closed (P := fun hash' => st.Agrees st' hash' ∨ hash' = hash) ?_ ?_
        · intro hash' h'
          rw [get_put hbytes, get_put hbytes]
          by_cases heq : hash' = hash
          · rw [if_pos heq, if_pos heq]
          · rw [if_neg heq, if_neg heq]
            exact (h'.resolve_right heq).get
        · intro hash' read h' hread
          rw [get_put hbytes] at hread
          by_cases heq : hash' = hash
          · rw [if_pos heq] at hread
            cases hread
            exact fun i => (h i).mono fun _ => .inl
          · rw [if_neg heq] at hread
            exact fun i => ((h'.resolve_right heq).within hread i).mono fun _ => .inl
      exact ⟨rfl, fun hash' h' => hagrees hash' (.inl h'), hagrees hash (.inr rfl)⟩

theorem Node.store_alongside {keyPrefix : Key} {children : Fin 16 → Option Hash}
    {content : Option Content} (h : ∀ i hash, children i = some hash → st.Agrees st' hash) :
    Fallible.Alongside (Node.store c keyPrefix children content)
      (Node.store c keyPrefix children content) st st'
      (fun node s s' => TrieStore.Keeps st st' s s' ∧ s.Agrees s' (node.hash c))
      (TrieStore.Keeps st st') :=
  (TrieStore.set_alongside _ fun i => Child.within_ofOptionalHash (h i)).bind fun _ _ _ hset =>
    .pure hset

/-- Children that are saved one after another. -/
theorem promiseAll_alongside {n : Nat} {f : Fin n → Action TrieStore (Option Hash)}
    (h : ∀ i s s', TrieStore.Keeps st st' s s' →
      Fallible.Alongside (f i) (f i) s s'
        (fun result t t' => TrieStore.Keeps s s' t t' ∧ ∀ hash, result = some hash → t.Agrees t' hash)
        (TrieStore.Keeps s s')) :
    Fallible.Alongside (promiseAll f) (promiseAll f) st st'
      (fun results s s' => TrieStore.Keeps st st' s s' ∧
        ∀ i hash, results i = some hash → s.Agrees s' hash)
      (TrieStore.Keeps st st') := by
  induction n generalizing st st' with
  | zero => exact .pure ⟨.refl st st', fun i => i.elim0⟩
  | succ n ih =>
      refine (h 0 st st' (.refl st st')).bind ?_
      rintro first s s' ⟨hkeeps, hfirst⟩
      have hrest := ih (f := fun i => f i.succ) fun i t t' ht => h i.succ t t' (hkeeps.trans ht)
      refine (hrest.mono (fun _ _ _ hall => hall) fun _ _ hall => hkeeps.trans hall).bind ?_
      rintro rest t t' ⟨hkeeps', hall⟩
      refine .pure ⟨hkeeps.trans hkeeps', ?_⟩
      intro i
      refine Fin.cases ?_ hall i
      exact fun hash hhash => hkeeps' hash (hfirst hash hhash)

/-- Nodes in memory are saved in the same way, and the stores agree on what is saved. -/
theorem Child.save_alongside {child : Child} (h : child.Within (st.Agrees st')) :
    Fallible.Alongside (child.save c) (child.save c) st st'
      (fun result s s' => TrieStore.Keeps st st' s s' ∧
        ∀ hash, result = some hash → s.Agrees s' hash)
      (TrieStore.Keeps st st') := by
  induction child generalizing st st' with
  | none => exact .pure ⟨.refl st st', nofun⟩
  | ofHash hash =>
      refine .pure ⟨.refl st st', ?_⟩
      rintro _ ⟨⟩
      exact h
  | ofNode keyPrefix children content ih =>
      refine (promiseAll_alongside fun i s s' hs => ih i ((h i).mono hs)).bind ?_
      rintro hashes s s' ⟨hkeeps, hhashes⟩
      refine ((Node.store_alongside hhashes).mono (fun _ _ _ hstored => hstored)
        fun _ _ hstored => hkeeps.trans hstored).bind ?_
      rintro node t t' ⟨hkeeps', hnode⟩
      refine .pure ⟨hkeeps.trans hkeeps', ?_⟩
      rintro _ ⟨⟩
      exact hnode

theorem Node.save_alongside {node : Node} (h : node.Within (st.Agrees st')) :
    Fallible.Alongside (node.save c) (node.save c) st st'
      (fun saved s s' => TrieStore.Keeps st st' s s' ∧ s.Agrees s' (saved.hash c))
      (TrieStore.Keeps st st') := by
  refine (promiseAll_alongside fun i s s' hs => Child.save_alongside ((h i).mono hs)).bind ?_
  rintro hashes s s' ⟨hkeeps, hhashes⟩
  refine (Node.store_alongside hhashes).mono ?_ ?_
  · exact fun _ _ _ hstored => ⟨hkeeps.trans hstored.1, hstored.2⟩
  · exact fun _ _ hstored => hkeeps.trans hstored

end Saving

/-! ## Tries -/

namespace MerklePatriciaTrie

variable {c : Crypto} {keep : Hash → Prop} {trie trie' : MerklePatriciaTrie} {α : Type}

/-- Two tries with the same root hash, in stores that agree on what the tries can be read from: the
root, the empty node, and other roots that are kept. -/
structure Alike (c : Crypto) (keep : Hash → Prop) (trie trie' : MerklePatriciaTrie) : Prop where
  rootHash : trie'.rootHash = trie.rootHash
  isReady : trie'.isReady = trie.isReady
  root : trie.store.Agrees trie'.store trie.rootHash
  null : trie.store.Agrees trie'.store (Node.null.hash c)
  kept : ∀ hash, keep hash → trie.store.Agrees trie'.store hash

/-- Stores that agree wherever these do. -/
theorem Alike.keeps (h : Alike c keep trie trie') {st st' : TrieStore}
    (hkeeps : TrieStore.Keeps trie.store trie'.store st st') :
    Alike c keep { trie with store := st } { trie' with store := st' } :=
  ⟨h.rootHash, h.isReady, hkeeps _ h.root, hkeeps _ h.null, fun hash hkept => hkeeps _ (h.kept hash hkept)⟩

/-- Another root on which the stores agree. -/
theorem Alike.withRoot (h : Alike c keep trie trie') {hash : Hash}
    (hagrees : trie.store.Agrees trie'.store hash) :
    Alike c keep { trie with rootHash := hash } { trie' with rootHash := hash } :=
  ⟨rfl, h.isReady, hagrees, h.null, h.kept⟩

/-- The root can be kept as well. -/
theorem Alike.keepRoot (h : Alike c keep trie trie') :
    Alike c (fun hash => keep hash ∨ hash = trie.rootHash) trie trie' := by
  refine ⟨h.rootHash, h.isReady, h.root, h.null, ?_⟩
  rintro hash (hkept | rfl)
  · exact h.kept hash hkept
  · exact h.root

theorem Alike.mono {keep' : Hash → Prop} (h : Alike c keep trie trie')
    (hkeep : ∀ hash, keep' hash → keep hash) : Alike c keep' trie trie' :=
  ⟨h.rootHash, h.isReady, h.root, h.null, fun hash hkept => h.kept hash (hkeep hash hkept)⟩

theorem alongside_checkReady (h : Alike c keep trie trie') :
    Fallible.Alongside checkReady checkReady trie trie'
      (fun _ t t' => trie = t ∧ trie' = t') (Alike c keep) := by
  unfold checkReady Fallible.Alongside
  rw [Fallible.get_bind, Fallible.get_bind, h.isReady]
  cases trie.isReady with
  | true => exact ⟨rfl, rfl, rfl⟩
  | false => exact ⟨rfl, h⟩

theorem alongside_reading {f : TrieStore → Result α} {Q : α → Prop} (h : Alike c keep trie trie')
    (hf : f trie'.store = f trie.store ∧ ∀ a, f trie.store = .ok a → Q a) :
    Fallible.Alongside (reading f) (reading f) trie trie'
      (fun a t t' => (trie = t ∧ trie' = t') ∧ Q a) (Alike c keep) := by
  have hsame := hf.1
  cases hread : f trie.store with
  | ok a =>
      rw [hread] at hsame
      simp only [Fallible.Alongside, reading, hread, hsame]
      exact ⟨trivial, ⟨trivial, trivial⟩, hf.2 a hread⟩
  | error e =>
      rw [hread] at hsame
      simp only [Fallible.Alongside, reading, hread, hsame]
      exact ⟨trivial, h⟩

theorem alongside_root (h : Alike c keep trie trie') :
    Fallible.Alongside root root trie trie'
      (fun node t t' => (trie = t ∧ trie' = t') ∧ node.Within (trie.store.Agrees trie'.store))
      (Alike c keep) := by
  refine (alongside_checkReady h).bind ?_
  rintro _ _ _ ⟨rfl, rfl⟩
  show Fallible.Alongside (reading fun store => store.get trie.rootHash)
    (reading fun store => store.get trie'.rootHash) trie trie' _ _
  rw [h.rootHash]
  exact alongside_reading h ⟨h.root.get, fun _ hget => h.root.within hget⟩

theorem alongside_onStore {action : Action TrieStore α} {Q : α → TrieStore → TrieStore → Prop}
    (h : Alike c keep trie trie')
    (haction : Fallible.Alongside action action trie.store trie'.store
      (fun a s s' => TrieStore.Keeps trie.store trie'.store s s' ∧ Q a s s')
      (TrieStore.Keeps trie.store trie'.store)) :
    Fallible.Alongside (onStore action) (onStore action) trie trie'
      (fun a t t' => Alike c keep t t' ∧ Q a t.store t'.store) (Alike c keep) := by
  unfold Fallible.Alongside at haction
  split at haction
  · rename_i hx hy
    simp only [Fallible.Alongside, onStore, hx, hy]
    exact ⟨haction.1, h.keeps haction.2.1, haction.2.2⟩
  · rename_i hx hy
    simp only [Fallible.Alongside, onStore, hx, hy]
    exact ⟨haction.1, h.keeps haction.2⟩
  · exact haction.elim

/-- The record of the root is read by `ready` only. -/
theorem agrees_writeRoot {st st' : TrieStore} {hash : Hash} (value : Bytes) (h : st.Agrees st' hash) :
    (st.write TrieStore.rootKey value).Agrees (st'.write TrieStore.rootKey value) hash := by
  refine TrieStore.agrees_of_closed (P := st.Agrees st') ?_ ?_ h
  · intro hash' hagrees
    rw [TrieStore.get_writeRoot, TrieStore.get_writeRoot]
    exact hagrees.get
  · intro hash' node hagrees hread
    rw [TrieStore.get_writeRoot] at hread
    exact hagrees.within hread

theorem alongside_save {node : Node} (h : Alike c keep trie trie')
    (hnode : node.Within (trie.store.Agrees trie'.store)) :
    Fallible.Alongside (save c node) (save c node) trie trie' (fun _ => Alike c keep)
      (Alike c keep) := by
  have hnormalized : node.normalize trie'.store = node.normalize trie.store ∧
      ∀ result, node.normalize trie.store = .ok result →
        ∀ n, result = some n → n.Within (trie.store.Agrees trie'.store) := by
    simp only [← Node.normalizeCode_eval]
    exact (Node.normalizeCode_confined hnode).eval_eq
  refine (alongside_reading (f := fun store => node.normalize store) h hnormalized).bind ?_
  rintro normalized _ _ ⟨⟨rfl, rfl⟩, hwithin⟩
  -- then the root is recorded, and taken
  have hrest : ∀ (newRoot : Node) (t t' : MerklePatriciaTrie),
      Alike c keep t t' ∧ t.store.Agrees t'.store (newRoot.hash c) →
      Fallible.Alongside
        (do
          onStore (TrieStore.setRoot (newRoot.hash c))
          modify fun trie => { trie with rootHash := newRoot.hash c })
        (do
          onStore (TrieStore.setRoot (newRoot.hash c))
          modify fun trie => { trie with rootHash := newRoot.hash c }) t t'
        (fun _ => Alike c keep) (Alike c keep) := by
    rintro newRoot t t' ⟨halike, hagrees⟩
    exact ⟨rfl, rfl, halike.isReady, agrees_writeRoot _ hagrees, agrees_writeRoot _ halike.null,
      fun hash hkept => agrees_writeRoot _ (halike.kept hash hkept)⟩
  cases normalized with
  | none => exact hrest Node.null trie trie' ⟨h, h.null⟩
  | some saved => exact (alongside_onStore h (Node.save_alongside (hwithin saved rfl))).bind hrest

/-- Reading a value is the same in both. -/
theorem simulates_get (key : Bytes) :
    Fallible.Simulates (fun _ => True) (Alike c keep) (get key) (get key) := by
  refine Fallible.Alongside.simulates ?_
  intro trie trie' h
  refine (alongside_root h).bind ?_
  rintro node _ _ ⟨⟨rfl, rfl⟩, hnode⟩
  refine (alongside_reading (Q := fun _ => True) h ⟨hnode.get_congr _, fun _ _ => trivial⟩).bind ?_
  rintro value _ _ ⟨⟨rfl, rfl⟩, -⟩
  exact .pure h

/-- An operation does the same in both, and they are alike again. -/
theorem simulates_apply (op : Operation) :
    Fallible.Simulates (fun _ => True) (Alike c keep) (op.apply c) (op.apply c) := by
  refine Fallible.Alongside.simulates ?_
  intro trie trie' h
  have hstep : ∀ {f : TrieStore → Node → Result Node},
      (∀ (st : TrieStore) (node : Node), (op.code node).eval st.get = f st node) →
      Fallible.Alongside (root >>= fun node => reading (fun store => f store node) >>= save c)
        (root >>= fun node => reading (fun store => f store node) >>= save c) trie trie'
        (fun _ => Alike c keep) (Alike c keep) := by
    intro f hf
    refine (alongside_root h).bind ?_
    rintro node _ _ ⟨⟨rfl, rfl⟩, hnode⟩
    have heval := (op.code_confined hnode).eval_eq
    simp only [hf] at heval
    refine (alongside_reading (f := fun store => f store node) h heval).bind ?_
    rintro updated _ _ ⟨⟨rfl, rfl⟩, hupdated⟩
    exact alongside_save h hupdated
  cases op with
  | set content => exact hstep fun st node => Node.setCode_eval node _ content
  | delete key => exact hstep fun st node => Node.deleteCode_eval node _
  | clear keyPrefix => exact hstep fun st node => Node.clearCode_eval node _

/-- A root that is kept can be rolled back to. -/
theorem simulates_rollback {hash : Hash} (hkeep : keep hash) :
    Fallible.Simulates (fun _ => True) (Alike c keep) (rollback hash) (rollback hash) := by
  refine Fallible.Alongside.simulates ?_
  intro trie trie' h
  refine (alongside_checkReady h).bind ?_
  rintro _ _ _ ⟨rfl, rfl⟩
  exact ⟨rfl, h.withRoot (h.kept hash hkeep)⟩

end MerklePatriciaTrie

end UniqysKit
