import UniqysKit.MerklePatriciaTrie.Agreement

/-!
# Rollback

`rollback` only sets the root hash back.  The nodes of the old version are read from the store as it
is now, and a node is stored under a hash that does not cover the half bytes it skips: when a later
operation splits or merges its parent, the same node is saved again with another label, over the old
entry.  So an old version is restored exactly when the store still holds each of its nodes as it
was.  The list of entries, which never looks at labels, is restored in any case.
-/

namespace UniqysKit

open Library

/-! ## The entries of a trie -/

section Entries

variable {c : Crypto} {st : TrieStore}

theorem mapM_map {α β : Type} {f : α → Result β} {g : α → β} {l : List α}
    (h : ∀ a ∈ l, f a = .ok (g a)) : l.mapM f = .ok (l.map g) := by
  induction l with
  | nil => rfl
  | cons a l ih =>
      simp [h a (by simp), ih fun a' ha' => h a' (by simp [ha'])]

theorem mapM_id_some {α : Type} (l : List α) : (l.map some).mapM id = some l := by
  induction l with
  | nil => rfl
  | cons a l ih => simp [ih]

/-- With a large enough bound the walk returns the contents of the tree in order. -/
theorem NodeResolves.contents {node : Node} {t : TrieTree} (h : NodeResolves c st node t) :
    ∃ bound, ∀ fuel ≥ bound, node.contents st fuel = .ok (some t.contents) := by
  induction t generalizing node with
  | nil =>
      rcases h with ⟨below, hbelow, -⟩
      cases hbelow
  | node label below content ih =>
      rcases h with ⟨below', heq, hbelow⟩
      rcases Patricia.node.inj heq with ⟨rfl, rfl, rfl⟩
      have hchild : ∀ i, ∃ bound, ∀ fuel ≥ bound,
          ((node.children i).dereference st).elim (.ok (some []))
            (fun child => do Node.contents st fuel (← child)) = .ok (some (below i).contents) := by
        intro i
        rcases (hbelow i).dereference with ⟨hnil, hnone⟩ | ⟨next, hnext, hresolves⟩
        · refine ⟨0, fun fuel _ => ?_⟩
          rw [hnone, hnil]
          rfl
        · rcases ih i hresolves with ⟨bound, hbound⟩
          refine ⟨bound, fun fuel hfuel => ?_⟩
          rw [hnext]
          exact hbound fuel hfuel
      -- one bound for all sixteen children
      choose bound hbound using hchild
      refine ⟨Finset.univ.sup bound + 1, ?_⟩
      intro fuel hfuel
      obtain ⟨fuel, rfl⟩ : ∃ m, fuel = m + 1 := ⟨fuel - 1, by omega⟩
      have hle : ∀ i, bound i ≤ fuel := by
        intro i
        have := Finset.le_sup (f := bound) (Finset.mem_univ i)
        omega
      have hmap := mapM_map (l := List.finRange 16) fun i _ => hbound i fuel (hle i)
      have hsome : (List.finRange 16).map (fun i => some (below i).contents) =
          ((List.finRange 16).map fun i => (below i).contents).map some := by simp
      rw [Node.contents, hmap, Result.ok_bind, hsome, mapM_id_some]
      simp only [Option.map_some, Result.pure_eq, Patricia.contents, List.flatMap_def]

theorem MerklePatriciaTrie.Readable.entries {trie : MerklePatriciaTrie} {t : TrieTree}
    (h : trie.Readable c t) :
    ∃ bound, ∀ fuel ≥ bound, MerklePatriciaTrie.entries fuel trie =
      .ok (some (t.contents.map fun content => (content.key, content.value))) trie := by
  rcases h.root with ⟨node, t₀, hroot, hnode, -, hcontents, -⟩
  rcases hnode.contents with ⟨bound, hbound⟩
  refine ⟨bound, ?_⟩
  intro fuel hfuel
  have hread := @reading_ok trie _ (fun store => node.contents store fuel) _
    (hbound fuel hfuel)
  rw [MerklePatriciaTrie.entries, Fallible.bind_ok hroot, Fallible.bind_ok hread, hcontents]
  rfl

end Entries

/-! ## Old versions in a later store -/

namespace MerklePatriciaTrie

/-- Every node of the version that `trie` has as its root is in the store of `later` as it was. -/
def Retained (trie later : MerklePatriciaTrie) : Prop :=
  ∀ hash, NodeOf trie.store trie.rootHash hash → later.store.get hash = trie.store.get hash

/-- All reads and the list of entries are the same. -/
def Restored (trie later : MerklePatriciaTrie) : Prop :=
  (∀ key, ∃ value, get key trie = .ok value trie ∧ get key later = .ok value later) ∧
    ∃ bound, ∀ fuel ≥ bound, ∃ list, entries fuel trie = .ok (some list) trie ∧
      entries fuel later = .ok (some list) later

variable {c : Crypto} {trie later : MerklePatriciaTrie} {t : TrieTree}

/-- The nodes of a version are the nodes of its tree. -/
theorem Readable.nodeOf (h : Readable c trie t) {hash : Hash}
    (hhash : NodeOf trie.store trie.rootHash hash) :
    (t = .nil ∧ hash = Node.null.hash c) ∨ ∃ label children content,
      Patricia.Subtree (.node label children content) t ∧
        hash = (record c label children content).hash c := by
  induction hhash with
  | root =>
      rw [h.rootHash]
      cases t with
      | nil => exact .inl ⟨rfl, rfl⟩
      | node label children content =>
          exact .inr ⟨label, children, content, .inl rfl, (hash_record c _ _ _).symm⟩
  | @child hash hash' node i _ hget hchild ih =>
      rcases ih with ⟨rfl, rfl⟩ | ⟨label, children, content, hs, rfl⟩
      -- the empty node has no children
      · rw [h.consistent.get_null] at hget
        cases hget
        cases hchild
      -- what the store has under the hash is the record of the subtree
      · rw [(h.stored label children content hs).1] at hget
        cases hget
        simp only [record] at hchild
        cases hci : children i with
        | nil =>
            rw [hci] at hchild
            cases hchild
        | node label' children' content' =>
            rw [hci, refOf_node] at hchild
            refine .inr ⟨label', children', content', ?_, ?_⟩
            · refine Patricia.Subtree.trans ?_ hs
              exact .inr ⟨i, by rw [hci]; exact .inl rfl⟩
            · rw [hash_record]
              exact (Child.ofHash.inj hchild).symm

/-- Every node of the tree of a version can be come across. -/
theorem Readable.nodeOf_subtree (h : Readable c trie t) {label : Key}
    {children : Fin 16 → TrieTree} {content : Option Content}
    (hs : Patricia.Subtree (.node label children content) t) :
    NodeOf trie.store trie.rootHash ((record c label children content).hash c) := by
  -- down the tree: what is under a node of the trie is one as well
  have hbelow : ∀ s : TrieTree, Patricia.Subtree s t →
      (∀ hash, s.digest (combine c) = some hash → NodeOf trie.store trie.rootHash hash) →
      Patricia.Subtree (.node label children content) s →
      NodeOf trie.store trie.rootHash ((record c label children content).hash c) := by
    intro s
    induction s with
    | nil =>
        intro _ _ hs'
        exact absurd hs' (by simp [Patricia.Subtree])
    | node label' children' content' ih =>
        intro hst hnode hs'
        rcases hs' with heq | ⟨i, hs'⟩
        · rcases Patricia.node.inj heq with ⟨rfl, rfl, rfl⟩
          exact hnode _ (by rw [hash_record]; rfl)
        -- the parent is found in the store, and it names the hash of the child
        · have hparent := hnode _ rfl
          have hget := (h.stored label' children' content' hst).1
          rw [hash_record] at hget
          have hne : children' i ≠ .nil := by
            intro hnil
            rw [hnil] at hs'
            exact hs'
          have hchild : Patricia.Subtree (children' i) (.node label' children' content') :=
            Or.inr ⟨i, .refl hne⟩
          refine ih i (hchild.trans hst) ?_ hs'
          · intro hash hdigest
            refine .child (i := i) hparent hget ?_
            simp only [record, refOf, hdigest, Child.ofOptionalHash]
  have hne : t ≠ .nil := by
    rintro rfl
    exact hs
  refine hbelow t (.refl hne) ?_ hs
  intro hash hdigest
  have hroot := h.rootHash
  rw [rootHashOf, hdigest, Option.getD_some] at hroot
  rw [← hroot]
  exact .root

/-- The label under which a later store holds the topmost node of a tree. -/
def labelIn (c : Crypto) (st : TrieStore) : TrieTree → Key
  | .nil => []
  | .node label children content =>
      match st.get ((record c label children content).hash c) with
      | .ok node => node.keyPrefix
      | .error _ => label

/-- A later store holds an old version up to the labels of its nodes. -/
theorem Sound.stored_relabel (h : Sound c trie t) (hlater : Consistent c later.store)
    (hsub : trie.saved ⊆ later.saved) :
    Stored c later.store (t.relabel (labelIn c later.store)) := by
  intro label children content hs
  rcases hs.of_relabel with ⟨s₀, hs₀, hrelabel⟩
  cases s₀ with
  | nil => cases hrelabel
  | node label₀ children₀ content₀ =>
      rcases Patricia.node.inj hrelabel with ⟨rfl, rfl, rfl⟩
      have hmem := hsub (h.stored label₀ children₀ content hs₀).2
      rcases hlater.present _ hmem with ⟨node, hnode, hget, hhash⟩
      -- the store of the later trie has an entry under this hash
      have hpre := hlater.noCollision _ hnode _ hmem hhash
      rcases hlater.genuine node hnode with
        rfl | ⟨path', label', children', content', rfl, hn', hl', hlogged'⟩
      · exact absurd hpre.symm (preImage_record_ne (hs₀.normal h.normal))
      · -- the entry belongs to a tree with the same contents, so only the label can differ
        rcases hs₀.located h.located with ⟨path, hl⟩
        have hlogged : Logged c later.saved (.node label₀ children₀ content) := by
          intro l ch v hsub'
          exact hsub (h.stored l ch v (hsub'.trans hs₀)).2
        obtain ⟨rfl, rfl⟩ := below_eq_of_hash hlater.noCollision hlogged' hlogged hn'
          (hs₀.normal h.normal) hl' hl hhash
        have hlabel : labelIn c later.store (.node label₀ children' content') = label' := by
          rw [labelIn, hget]
          rfl
        have hrecord : record c (labelIn c later.store (.node label₀ children' content'))
            (fun i => (children' i).relabel (labelIn c later.store)) content' =
              record c label' children' content' := by
          rw [hlabel]
          simp only [record, refOf, Patricia.digest_relabel]
        rw [hrecord, hhash]
        exact ⟨hget, hnode⟩

/-- After a rollback the trie is readable, as the old tree up to its labels. -/
theorem Sound.readable_rollback (h : Sound c trie t) (hready : later.isReady = true)
    (hlater : Consistent c later.store) (hsub : trie.saved ⊆ later.saved) :
    Readable c { later with rootHash := trie.rootHash }
      (t.relabel (labelIn c later.store)) := by
  refine ⟨hready, hlater, h.normal.relabel _, h.stored_relabel hlater hsub, ?_⟩
  rw [rootHashOf, Patricia.digest_relabel]
  exact h.rootHash

/-- If every content of the old version is found under its key, no node has changed. -/
theorem Sound.retained_of_get (h : Sound c trie t) (hready : later.isReady = true)
    (hlater : Consistent c later.store) (hsub : trie.saved ⊆ later.saved)
    (hget : ∀ content ∈ t.contents,
      Fallible.outcome (get content.key { later with rootHash := trie.rootHash }) =
        Fallible.outcome (get content.key trie)) : Retained trie later := by
  have hreadable := h.readable_rollback hready hlater hsub
  have hsame : t.relabel (labelIn c later.store) = t := by
    refine Patricia.relabel_eq_of_lookup h.normal ?_
    intro k hk
    rcases Option.isSome_iff_exists.mp hk with ⟨content, hcontent⟩
    obtain rfl : content.nibbles = k := h.located k content hcontent
    have hvalue := hget content (Patricia.mem_contents.mpr ⟨_, hcontent⟩)
    rw [hreadable.get, h.get] at hvalue
    have hmap := congrArg Option.isSome (Except.ok.inj hvalue)
    rw [Option.isSome_map, Option.isSome_map] at hmap
    exact hmap.trans hk
  have hstored := hreadable.stored
  rw [hsame] at hstored
  intro hash hhash
  rcases h.nodeOf hhash with ⟨-, rfl⟩ | ⟨label, children, content, hs, rfl⟩
  · rw [hlater.get_null, h.consistent.get_null]
  · exact (hstored label children content hs).1.trans (h.stored label children content hs).1.symm

theorem rollback_eq (root : Hash) (trie : MerklePatriciaTrie) :
    rollback root trie = if trie.isReady then .ok () { trie with rootHash := root }
      else .error ⟨"trie is not ready"⟩ trie := by
  by_cases hready : trie.isReady = true
  · rw [rollback, Fallible.bind_ok (checkReady_ok hready), if_pos hready]
    rfl
  · have hthrow : checkReady trie = .error ⟨"trie is not ready"⟩ trie := by
      rw [checkReady, Fallible.get_bind]
      simp only [hready, Bool.not_false, if_true]
      rfl
    rw [rollback, Fallible.bind_error hthrow, if_neg hready]

/-- What `get` returns or throws on a ready trie. -/
theorem outcome_get (hready : trie.isReady = true) (key : Bytes) :
    Fallible.outcome (get key trie) = (do
      let root ← trie.store.get trie.rootHash
      let content ← root.get trie.store (Key.bufferToKey key)
      return content.map Content.value) := by
  have hroot : root trie = reading (fun store => store.get trie.rootHash) trie := by
    rw [root, Fallible.bind_ok (checkReady_ok hready)]
    rfl
  -- neither reading writes to the trie, so only the answers are left to compare
  cases hget : trie.store.get trie.rootHash with
  | error e =>
      have hread : reading (fun store => store.get trie.rootHash) trie = .error e trie := by
        simp only [reading, hget]
      rw [get, Fallible.bind_error (hroot.trans hread)]
      rfl
  | ok node =>
      rw [get, Fallible.bind_ok (hroot.trans (reading_ok hget))]
      cases hnode : node.get trie.store (Key.bufferToKey key) with
      | error e =>
          have hread : reading (fun store => node.get store (Key.bufferToKey key)) trie =
              .error e trie := by
            simp only [reading, hnode]
          rw [Fallible.bind_error hread]
          simp [Fallible.outcome, hnode]
      | ok content =>
          rw [Fallible.bind_ok (reading_ok hnode), Result.ok_bind, hnode]
          rfl

/-- A version whose nodes have not changed reads the same, whatever else the stores hold. -/
theorem Retained.get_eq (hretained : Retained trie later) (hready : trie.isReady = true)
    (hready' : later.isReady = true) (key : Bytes) :
    Fallible.outcome (get key { later with rootHash := trie.rootHash }) =
      Fallible.outcome (get key trie) := by
  have hlater := @outcome_get { later with rootHash := trie.rootHash } hready' key
  rw [hlater, outcome_get hready, hretained _ .root]
  cases hget : trie.store.get trie.rootHash with
  | error e => rfl
  | ok node =>
      simp only [Result.ok_bind]
      have hagrees : trie.store.Agrees later.store trie.rootHash := hretained
      rw [(hagrees.within hget).get_congr]

/-- A version whose nodes have not changed is sound again after the rollback. -/
theorem Retained.sound (hretained : Retained trie later) (h : Sound c trie t)
    (hready : later.isReady = true) (hlater : Consistent c later.store)
    (hsub : trie.saved ⊆ later.saved) : Sound c { later with rootHash := trie.rootHash } t := by
  refine ⟨⟨hready, hlater, h.normal, ?_, h.rootHash⟩, h.located⟩
  intro label children content hs
  rcases h.stored label children content hs with ⟨hget, hmem⟩
  exact ⟨(hretained _ (h.nodeOf_subtree hs)).trans hget, hsub hmem⟩

/-- Rolling back to a version restores it exactly when the store still holds its nodes. -/
theorem Sound.restored_iff (h : Sound c trie t) (hready : later.isReady = true)
    (hlater : Consistent c later.store) (hsub : trie.saved ⊆ later.saved) :
    Restored trie { later with rootHash := trie.rootHash } ↔ Retained trie later := by
  constructor
  · rintro ⟨hget, -⟩
    refine h.retained_of_get hready hlater hsub ?_
    intro content _
    rcases hget content.key with ⟨value, hvalue, hvalue'⟩
    rw [hvalue, hvalue']
    rfl
  · intro hretained
    have hsound := hretained.sound h hready hlater hsub
    rcases h.toReadable.entries with ⟨bound, hentries⟩
    rcases hsound.toReadable.entries with ⟨bound', hentries'⟩
    refine ⟨?_, max bound bound', ?_⟩
    · intro key
      exact ⟨_, h.get key, hsound.get key⟩
    · intro fuel hfuel
      exact ⟨_, hentries fuel (le_trans (le_max_left _ _) hfuel),
        hentries' fuel (le_trans (le_max_right _ _) hfuel)⟩

/-- On every run, going back to an earlier root restores that version exactly when its nodes are
still stored as they were. -/
theorem rollback_restores_iff (c : Crypto) (ops later : List Operation)
    (h : NoCollision c (Fallible.final (run c (ops ++ later) (new c))).saved) :
    ∃ trie trie' trie'', run c ops (new c) = .ok () trie ∧
      run c (ops ++ later) (new c) = .ok () trie' ∧
      rollback trie.rootHash trie' = .ok () trie'' ∧
      (Restored trie trie'' ↔ Retained trie trie') := by
  have hsplit : run c (ops ++ later) = (do
      run c ops
      Operation.applyAll c later) := by
    simp only [run, Operation.applyAll_append, bind_assoc]
  -- what the first operations save is among what all of them save
  have hgrow : (Fallible.final (run c ops (new c))).saved ⊆
      (Fallible.final (run c (ops ++ later) (new c))).saved := by
    rw [hsplit]
    exact (Fallible.Respects.final_bind (fun _ => Operation.forward_applyAll c later)
      (new c)).1.subset
  rcases run_sound ops (h.mono hgrow) with ⟨trie, t, hrun, hsound, -⟩
  rcases run_sound (ops ++ later) h with ⟨trie', t', hrun', hsound', -⟩
  rw [hrun, hrun'] at hgrow
  have hrollback : rollback trie.rootHash trie' =
      .ok () { trie' with rootHash := trie.rootHash } := by
    rw [rollback_eq, if_pos hsound'.isReady]
  exact ⟨trie, trie', _, hrun, hrun', hrollback,
    hsound.restored_iff hsound'.isReady hsound'.consistent hgrow⟩

/-- One key is set, a second one splits its node, and the first root is rolled back to. -/
def catTrie : MerklePatriciaTrie := Fallible.final (run .transparent [.set cat] (new .transparent))

def catDogTrie : MerklePatriciaTrie :=
  Fallible.final (run .transparent ([.set cat] ++ [.set dog]) (new .transparent))

def rolledBack : MerklePatriciaTrie := Fallible.final (rollback catTrie.rootHash catDogTrie)

theorem rollback_restores_iff_catDog :
    ∃ trie trie' trie'', run .transparent [.set cat] (new .transparent) = .ok () trie ∧
      run .transparent ([.set cat] ++ [.set dog]) (new .transparent) = .ok () trie' ∧
      rollback trie.rootHash trie' = .ok () trie'' ∧
      (Restored trie trie'' ↔ Retained trie trie') :=
  rollback_restores_iff .transparent [.set cat] [.set dog] (by decide +kernel)

/-- The node of `cat` was saved again without the half byte on which `dog` parts, and the first
version reads it that way. -/
theorem rollback_loses_cat :
    Fallible.value (run .transparent [.set cat] (new .transparent)) = some () ∧
      Fallible.value (run .transparent ([.set cat] ++ [.set dog]) (new .transparent)) = some () ∧
      Fallible.value (rollback catTrie.rootHash catDogTrie) = some () ∧
      NoCollision .transparent catDogTrie.saved ∧ ¬ Restored catTrie rolledBack := by
  have hbefore : Fallible.value (get cat.key catTrie) = some (some [1]) := by decide +kernel
  have hafter : Fallible.value (get cat.key rolledBack) = some none := by decide +kernel
  refine ⟨by decide +kernel, by decide +kernel, by decide +kernel, by decide +kernel, ?_⟩
  rintro ⟨hget, -⟩
  rcases hget cat.key with ⟨value, hvalue, hvalue'⟩
  rw [hvalue] at hbefore
  rw [hvalue'] at hafter
  simp only [Fallible.value, Option.some.injEq] at hbefore hafter
  rw [hbefore] at hafter
  cases hafter

end MerklePatriciaTrie

end UniqysKit
