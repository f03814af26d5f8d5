import UniqysKit.MerklePatriciaTrie.Rollback
import UniqysKit.MerklePatriciaTrie.SteppedUpdate

/-!
# Which operations change the label of an old node

What the store holds of an old version is known from the trees that the trie has been since: a node is
saved again under its hash when a later tree has it in another place, so under the hash is its label in
the newest tree that has the node.  The trees are those of the contents, so the contents alone, from
one operation to the next, say which old versions can be rolled back to.
-/

namespace UniqysKit

open Library

theorem TreeOf.unique {contents : Bytes → Option Bytes} {t t' : TrieTree} (h : TreeOf contents t)
    (h' : TreeOf contents t') : t = t' := by
  refine h.normal.eq_of_lookup h'.normal (MerklePatriciaTrie.lookup_eq_of_values h.located h'.located ?_)
  intro key
  rw [h.values, h'.values]

/-- Each node of the tree of the contents keeps its label in the trees of the later contents. The
newest contents come first. -/
def KeepsLabels (contents : Bytes → Option Bytes) (later : List (Bytes → Option Bytes)) : Prop :=
  ∀ t trees, TreeOf contents t → List.Forall₂ TreeOf later trees → t.KeepsLabels trees

namespace MerklePatriciaTrie

variable {c : Crypto} {start trie trie' : MerklePatriciaTrie} {t₀ t t' : TrieTree}
  {trees : List TrieTree}

/-- The trie has come from the start through these trees, the newest of which comes first. -/
structure Traced (c : Crypto) (start : MerklePatriciaTrie) (t₀ : TrieTree)
    (trie : MerklePatriciaTrie) (trees : List TrieTree) : Prop where
  soundStart : start.Sound c t₀
  sound : trie.Sound c (trees.headD t₀)
  saved : start.saved ⊆ trie.saved
  labels : ∀ label children content, Patricia.Subtree (.node label children content) t₀ →
    ∀ label', Patricia.Labelled children content label trees label' →
      trie.store.get ((record c label children content).hash c) =
        .ok (record c label' children content)

theorem Sound.traced (h : start.Sound c t₀) : Traced c start t₀ start [] := by
  refine ⟨h, h, List.Subset.refl _, ?_⟩
  intro label children content hs label' hlabel
  cases hlabel
  exact (h.stored label children content hs).1

/-- An operation leads to one more tree. -/
theorem Traced.step (h : Traced c start t₀ trie trees) (ht : trie'.Sound c t)
    (hwrites : WritesOnly c trie trie' t) (hsub : trie.saved ⊆ trie'.saved) :
    Traced c start t₀ trie' (t :: trees) := by
  refine ⟨h.soundStart, ht, List.Subset.trans h.saved hsub, ?_⟩
  intro label children content hs label' hlabel
  cases hlabel with
  | newest hs' =>
      have hget := (ht.stored label' children content hs').1
      rwa [hash_record, ← hash_record c label] at hget
  | earlier hnone hearlier =>
      rcases hwrites ((record c label children content).hash c) with
        hsame | ⟨other, children', content', hs', hhash⟩
      · rw [hsame]
        exact h.labels label children content hs label' hearlier
      · -- a node with this hash would be the same, up to its label
        exfalso
        rcases hs.located h.soundStart.located with ⟨path, hl⟩
        rcases hs'.located ht.located with ⟨path', hl'⟩
        have hlogged : Logged c trie'.saved (.node label children content) :=
          fun l ch v hsub' => hsub (h.saved (h.soundStart.stored l ch v (hsub'.trans hs)).2)
        have hlogged' : Logged c trie'.saved (.node other children' content') :=
          fun l ch v hsub' => (ht.stored l ch v (hsub'.trans hs')).2
        obtain ⟨rfl, rfl⟩ := below_eq_of_hash ht.consistent.noCollision hlogged' hlogged
          (hs'.normal ht.normal) (hs.normal h.soundStart.normal) hl' hl hhash
        exact hnone other hs'

/-- The nodes of the first version are in the store as they were exactly when the trees keep their
labels. -/
theorem Traced.retained_iff (h : Traced c start t₀ trie trees) :
    Retained start trie ↔ t₀.KeepsLabels trees := by
  constructor
  · intro hretained label children content hs
    obtain ⟨label', hlabel⟩ := Patricia.exists_labelled children content label trees
    have hget := h.labels label children content hs label' hlabel
    rw [hretained _ (h.soundStart.nodeOf_subtree hs),
      (h.soundStart.stored label children content hs).1] at hget
    obtain rfl : label = label' := congrArg Node.keyPrefix (Except.ok.inj hget)
    exact hlabel
  · intro hkeeps hash hhash
    rcases h.soundStart.nodeOf hhash with ⟨-, rfl⟩ | ⟨label, children, content, hs, rfl⟩
    · rw [h.sound.consistent.get_null, h.soundStart.consistent.get_null]
    · rw [h.labels label children content hs label (hkeeps label children content hs),
        (h.soundStart.stored label children content hs).1]

end MerklePatriciaTrie

end UniqysKit
