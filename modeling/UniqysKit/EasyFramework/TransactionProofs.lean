import UniqysKit.EasyFramework.Execution

/-!
# Proofs that a transaction was executed

`State.getMerkleProof` is an inclusion proof in the list of which the app state hash is the root: the
root of the trie, and the hashes of the valid transactions.  It verifies for the transactions for
which `MerkleTree.proof` keeps track of the index.
-/

namespace UniqysKit
namespace EasyFramework

open MerkleTree

variable (c : Crypto)

/-- The items under the app state hash of a height. -/
def State.merkleItems (state : State) (height : Nat) : List Hash :=
  (state.metaState.appRoot height).getD Hash.zero :: state.metaState.validTransactionHashes height

/-- The proof of the target is there.  It verifies where the target is at most as far in the list as
there are items at the deepest level, and if no two of the buffers that are hashed collide, nowhere
else. -/
def ProofVerifies (items : List Hash) (target : Hash) (made : Result (List Hash)) (root : Hash) :
    Prop :=
  ∃ path, made = .ok path ∧
    (items.idxOf target ≤ deepest items.length → verify c path root target = true) ∧
    (CollisionFree c (hashed c items ++ climbed c target path) →
      verify c path root target = true → items.idxOf target ≤ deepest items.length)

/-- For every list of distinct items and every item of it, and for every valid transaction of a block:
the proof verifies exactly if the item is at the deepest level of the tree, or is the first one that
is not. -/
theorem proofs_verify_iff :
    (∀ items target, items.Nodup → target ∈ items →
      ProofVerifies c items target (proof c items target) (root c items)) ∧
    ∀ (state : State) (height : Nat) target, (state.merkleItems height).Nodup →
      target ∈ state.metaState.validTransactionHashes height →
        ProofVerifies c (state.merkleItems height) target (state.getMerkleProof c height target)
          (State.getMerkleRoot c ((state.metaState.appRoot height).getD Hash.zero)
            (state.metaState.validTransactionHashes height)) := by
  have hlists : ∀ items target, items.Nodup → target ∈ items →
      ProofVerifies c items target (proof c items target) (root c items) := by
    intro items target hnodup hmem
    rcases proof_spec c hmem hnodup with ⟨path, hpath, hcomplete, hsound⟩
    exact ⟨path, hpath, hcomplete, hsound⟩
  refine ⟨hlists, ?_⟩
  intro state height target hnodup hmem
  exact hlists _ target hnodup (List.mem_cons_of_mem _ hmem)

/-- The last of five items is the first one that is not at the deepest level. -/
theorem proofs_verify_iff_five :
    let items := (List.range 5).map letter
    ∃ path, proof .transparent items (letter 4) = .ok path ∧
      (verify .transparent path (root .transparent items) (letter 4) = true ↔ 4 ≤ deepest 5) := by
  intro items
  rcases (proofs_verify_iff .transparent).1 items (letter 4) (by decide +kernel) (by decide +kernel)
    with ⟨path, hpath, hcomplete, hsound⟩
  have hfree : ∀ path ∈ (proof .transparent items (letter 4)).toOption,
      CollisionFree .transparent (hashed .transparent items ++ climbed .transparent (letter 4) path) := by
    decide +kernel
  have hindex : items.idxOf (letter 4) = 4 := by decide +kernel
  rw [hpath] at hfree
  rw [hindex] at hcomplete hsound
  exact ⟨path, hpath, hsound (hfree path rfl), hcomplete⟩

/-- The last of six items gets the proof of the one before it. -/
theorem proof_of_sixth_fails :
    let items := (List.range 6).map letter
    items.Nodup ∧ letter 5 ∈ items ∧ CollisionFree .transparent (hashed .transparent items) ∧
      ∃ path, proof .transparent items (letter 5) = .ok path ∧
        proof .transparent items (letter 4) = .ok [letter 5, root .transparent (items.take 4)] ∧
        verify .transparent path (root .transparent items) (letter 5) = false := by
  refine ⟨by decide +kernel, by decide +kernel, by decide +kernel, ?_⟩
  exact ⟨[letter 5, root .transparent (((List.range 6).map letter).take 4)], by decide +kernel,
    by decide +kernel, by decide +kernel⟩

end EasyFramework
end UniqysKit
