import UniqysKit.MerklePatriciaTrie.ProofCompleteness

/-!
# Squashing the loads of a proof

`optimize` of `merkle-proof.ts` leaves alone what a proof says, for all proofs that are built by its
operations: the stack in the end, the values and the size.  In a proof that is built so, a hash
operation consumes what the operations of its own part have pushed, so that it stays within the stack
wherever that part is appended (`Within`).
-/

namespace UniqysKit
namespace MerkleProof

variable {c : Crypto}

/-! ## Hash operations -/

/-- A hash operation consumes no more than there is on the stack. -/
def Operation.Fits (stack : Bytes) : Operation → Prop
  | hash consume => 0 ≤ consume ∧ consume ≤ stack.length
  | _ => True

variable (c) in
/-- Every operation fits when it is executed. -/
def Within : List Operation → Bytes → Prop
  | [], _ => True
  | op :: operations, stack => op.Fits stack ∧ Within operations (op.step c stack)

theorem within_append {first second : List Operation} {stack : Bytes} :
    Within c (first ++ second) stack ↔
      Within c first stack ∧ Within c second (run c first stack) := by
  induction first generalizing stack with
  | nil => simp [Within, run]
  | cons op first ih =>
      rw [List.cons_append, Within, Within, ih, and_assoc]
      rfl

/-- Proofs that are built by the operations of the class. -/
inductive Built : MerkleProof → Prop
  | empty : Built empty
  | load {proof : MerkleProof} (data : Bytes) : Built proof → Built (proof.load data)
  | value {proof : MerkleProof} (data : Bytes) : Built proof → Built (proof.value data)
  | hash {proof : MerkleProof} : Built proof → Built proof.hash
  | append {proof tail : MerkleProof} : Built proof → Built tail → Built (proof.append tail)

variable {proof : MerkleProof}

theorem Built.pushes (h : Built proof) (c : Crypto) : ∃ bytes, Pushes c proof.operations bytes := by
  induction h with
  | empty => exact ⟨[], Pushes.nil⟩
  | load data _ ih =>
      rcases ih with ⟨bytes, hpushes⟩
      exact ⟨bytes ++ data, hpushes.append (Pushes.load data)⟩
  | value data _ ih =>
      rcases ih with ⟨bytes, hpushes⟩
      exact ⟨bytes ++ data, hpushes.append (Pushes.value data)⟩
  | hash _ ih =>
      rcases ih with ⟨bytes, hpushes⟩
      exact ⟨(Hash.fromData c bytes).buffer, hpushes.hash⟩
  | append _ _ ih ihtail =>
      rcases ih with ⟨bytes, hpushes⟩
      rcases ihtail with ⟨bytes', hpushes'⟩
      exact ⟨bytes ++ bytes', hpushes.append hpushes'⟩

/-- On every stack, so that a proof can be appended to any other one. -/
theorem Built.within (h : Built proof) (c : Crypto) (stack : Bytes) :
    Within c proof.operations stack := by
  induction h generalizing stack with
  | empty => trivial
  | load data _ ih => exact within_append.mpr ⟨ih stack, trivial, trivial⟩
  | value data _ ih => exact within_append.mpr ⟨ih stack, trivial, trivial⟩
  | hash hbuilt ih =>
      -- it consumes what its own part has pushed, whatever lies below on the stack
      rcases hbuilt.pushes c with ⟨bytes, hpushes⟩
      refine within_append.mpr ⟨ih stack, ⟨?_, ?_⟩, trivial⟩
      · rw [resultSize, hpushes.size]
        exact Int.natCast_nonneg _
      · rw [resultSize, hpushes.size, hpushes.run, List.length_append, Nat.cast_add]
        omega
  | append _ _ ih ihtail => exact within_append.mpr ⟨ih stack, ihtail _⟩

/-! ## Squashing -/

theorem size_optimize (proof : MerkleProof) : proof.optimize.resultSize = proof.resultSize := by
  refine optimize_eq (fun operations => (operations.map Operation.size).sum) ?_ proof
  intro ops data data' rest
  simp [Operation.size]
  omega

theorem within_optimize (proof : MerkleProof) (stack : Bytes) :
    Within c proof.optimize.operations stack ↔ Within c proof.operations stack := by
  refine iff_of_eq (optimize_eq (fun operations => Within c operations stack) ?_ proof)
  intro ops data data' rest
  rw [eq_iff_iff, within_append, within_append]
  simp [Within, Operation.Fits, Operation.step]

/-- Two operations that `optimize` does not squash. -/
def Apart (op next : Operation) : Prop :=
  ∀ data data', op = .load data → next ≠ .load data'

/-- No two loads in a row. -/
def Squashed (operations : List Operation) : Prop := operations.IsChain Apart

theorem squash_of_apart {top op : Operation} (ops : List Operation) (h : Apart top op) :
    squash (some top, ops) op = (some op, ops ++ [top]) := by
  cases top with
  | load data =>
      cases op with
      | load data' => exact absurd rfl (h data data' rfl)
      | value _ => rfl
      | hash _ => rfl
  | value _ => rfl
  | hash _ => rfl

/-- The bytes of a load do not matter. -/
theorem Squashed.load {ops : List Operation} {data : Bytes} (h : Squashed (ops ++ [.load data]))
    (data' : Bytes) : Squashed (ops ++ [.load data']) := by
  rcases List.isChain_append.mp h with ⟨hops, -, hlast⟩
  refine hops.append (List.isChain_singleton _) ?_
  intro op hop next hnext first second hfirst _
  exact hlast op hop (.load data) rfl first data hfirst rfl

/-- A turn of the loop keeps what it has squashed. -/
theorem Squashed.squash {top : Operation} {ops : List Operation} (op : Operation)
    (h : Squashed (ops ++ [top])) :
    ∃ top' ops', squash (some top, ops) op = (some top', ops') ∧ Squashed (ops' ++ [top']) := by
  by_cases hloads : ∃ data data', top = .load data ∧ op = .load data'
  · -- the load in hand grows and stays in hand
    rcases hloads with ⟨data, data', rfl, rfl⟩
    exact ⟨.load (data ++ data'), ops, rfl, h.load _⟩
  · have hapart : Apart top op := fun data data' htop hop => hloads ⟨data, data', htop, hop⟩
    refine ⟨op, ops ++ [top], squash_of_apart ops hapart, ?_⟩
    rw [List.append_assoc]
    exact List.isChain_append_cons_cons.mpr ⟨h, hapart, List.isChain_singleton op⟩

theorem squashed_foldl (operations : List Operation) {top : Operation} {ops : List Operation}
    (h : Squashed (ops ++ [top])) :
    Squashed (squashed (operations.foldl MerkleProof.squash (some top, ops))) := by
  induction operations generalizing top ops with
  | nil => exact h
  | cons op operations ih =>
      rcases h.squash op with ⟨top', ops', heq, h'⟩
      rw [List.foldl_cons, heq]
      exact ih h'

theorem squashed_optimize (proof : MerkleProof) : Squashed proof.optimize.operations := by
  rcases proof with ⟨operations⟩
  cases operations with
  | nil => exact List.IsChain.nil
  | cons op operations => exact squashed_foldl operations (List.isChain_singleton op)

/-- Where no two loads are in a row, the loop only moves the operations over. -/
theorem foldl_of_squashed (operations : List Operation) {top : Operation} {ops : List Operation}
    (h : Squashed (top :: operations)) :
    squashed (operations.foldl MerkleProof.squash (some top, ops)) = ops ++ top :: operations := by
  induction operations generalizing top ops with
  | nil => rfl
  | cons op operations ih =>
      rcases List.isChain_cons_cons.mp h with ⟨hfirst, hrest⟩
      rw [List.foldl_cons, squash_of_apart ops hfirst, ih hrest, List.append_assoc]
      rfl

theorem optimize_of_squashed {proof : MerkleProof} (h : Squashed proof.operations) :
    proof.optimize = proof := by
  rcases proof with ⟨operations⟩
  cases operations with
  | nil => rfl
  | cons op operations => exact congrArg MerkleProof.mk (foldl_of_squashed operations h)

/-! ## Proofs that are built by the class -/

/-- Optimising a proof leaves what it calculates, its values and its size as they were, and optimising
it twice is optimising it once.  Its hash operations stay within the stack. -/
theorem optimize_unobservable (c : Crypto) (proof : MerkleProof) (h : Built proof) :
    proof.optimize.calculate c = proof.calculate c ∧ proof.optimize.values = proof.values ∧
      proof.optimize.optimize = proof.optimize ∧
      proof.resultSize = (proof.calculate c).length ∧
      proof.optimize.resultSize = (proof.optimize.calculate c).length ∧
      Within c proof.operations [] ∧ Within c proof.optimize.operations [] := by
  rcases h.pushes c with ⟨bytes, hpushes⟩
  have hsize : proof.resultSize = (proof.calculate c).length := by
    rw [calculate, hpushes.run, List.nil_append]
    exact hpushes.size
  have hcalculate : proof.optimize.calculate c = proof.calculate c := run_optimize proof []
  refine ⟨hcalculate, values_optimize proof, optimize_of_squashed (squashed_optimize proof), hsize,
    ?_, h.within c [], (within_optimize proof []).mpr (h.within c [])⟩
  rw [size_optimize, hcalculate, hsize]

/-- A proof with a hash, and a load after it, is appended to one of two loads. -/
theorem optimize_unobservable_appended :
    let inner := (((empty.load [1]).load [2]).value [3]).hash.load [4]
    let proof := (((empty.load [5]).load [6]).append inner).hash
    proof.optimize.calculate .transparent = proof.calculate .transparent ∧
      proof.optimize.values = proof.values ∧
      proof.optimize.optimize = proof.optimize ∧
      proof.resultSize = (proof.calculate .transparent).length ∧
      proof.optimize.resultSize = (proof.optimize.calculate .transparent).length ∧
      Within .transparent proof.operations [] ∧ Within .transparent proof.optimize.operations [] :=
  optimize_unobservable .transparent _ (.hash (.append (.load _ (.load _ .empty))
    (.load _ (.hash (.value _ (.load _ (.load _ .empty)))))))

end MerkleProof
end UniqysKit
