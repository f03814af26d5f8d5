import UniqysKit.MerklePatriciaTrie.ProofCompleteness

/-!
# What trie proofs prove

A program that ends in the root hash can be read backwards: each load cuts bytes off the end of the
stack, and each hash puts back the bytes that were hashed.  `Committed` are the stacks one gets to in
this way.  Nothing says where on such a stack the content of a node begins or ends, so what can be
read as a content there can be proved.  In particular a value can be cut short
(`Sound.verifies_dropLast`), and a trie whose proofs are sound has only empty values.
-/

namespace UniqysKit

open Library MerkleProof

/-! ## Programs read backwards -/

/-- The stacks from which a program can still get to the root. -/
inductive Committed (c : Crypto) (root : Bytes) : Bytes → Prop where
  | root : Committed c root root
  | cut {stack rest : Bytes} : Committed c root (stack ++ rest) → Committed c root stack
  | opened {stack image : Bytes} :
      Committed c root (stack ++ (Hash.fromData c image).buffer) → Committed c root (stack ++ image)

section Programs

variable {c : Crypto}

/-- Cutting a stack in two leaves it whole. -/
theorem slice_append_slice (stack : Bytes) (start : Int) :
    slice stack 0 start ++ slice stack start stack.length = stack := by
  simp [slice]

theorem committed_of_run {root : Bytes} {operations : List MerkleProof.Operation} {stack : Bytes}
    (h : run c operations stack = root) : Committed c root stack := by
  induction operations generalizing stack with
  | nil =>
      rw [← h]
      exact .root
  | cons op operations ih =>
      have hrest := ih h
      cases op with
      | load data => exact hrest.cut
      | value data => exact hrest.cut
      | hash consume =>
          have hopened := Committed.opened hrest
          rwa [slice_append_slice] at hopened

theorem Committed.exists_run {root stack : Bytes} (h : Committed c root stack) :
    ∃ operations, run c operations stack = root := by
  induction h with
  | root => exact ⟨[], rfl⟩
  | @cut stack rest _ ih =>
      rcases ih with ⟨operations, hrun⟩
      exact ⟨.load rest :: operations, hrun⟩
  | @opened stack image _ ih =>
      rcases ih with ⟨operations, hrun⟩
      refine ⟨.hash image.length :: operations, ?_⟩
      rw [MerkleProof.run, List.foldl_cons, Operation.step_hash]
      exact hrun

/-- The first value of a program is on the stack at some time. -/
theorem committed_of_verify {proof : MerkleProof} {root : Hash} {data : Bytes} {others : List Bytes}
    (hverify : proof.verify c root = true) (hvalues : proof.values = data :: others) :
    ∃ stack, Committed c root.buffer (stack ++ data) := by
  rcases List.filterMap_eq_cons_iff.mp hvalues with ⟨before, op, after, hoperations, -, hdata, -⟩
  have hop : op = .value data := by
    cases op with
    | load _ => cases hdata
    | value data' =>
        cases hdata
        rfl
    | hash _ => cases hdata
  have hrun : run c after (run c before [] ++ data) = root.buffer := by
    have hcalculate := of_decide_eq_true hverify
    rw [calculate, hoperations, run_append, hop] at hcalculate
    exact hcalculate
  exact ⟨_, committed_of_run hrun⟩

/-- What a `KeyValueProof` shows is the content that its first value reads as. -/
theorem KeyValueProof.new_eq_ok {proof : MerkleProof} {kv : KeyValueProof}
    (h : KeyValueProof.new proof = .ok kv) :
    ∃ data others content rest, proof.values = data :: others ∧
      Content.deserialize data = .ok (content, rest) ∧ kv = ⟨proof, content.key, content.value⟩ := by
  unfold KeyValueProof.new at h
  split at h
  · cases h
  · rename_i data others hvalues
    rcases Result.bind_eq_ok.mp h with ⟨⟨content, rest⟩, hread, hkv⟩
    cases hkv
    exact ⟨data, others, content, rest, hvalues, hread, rfl⟩

/-- What can be read from the last bytes of a stack that the root commits to can be proved. -/
theorem Committed.exists_proof {root : Hash} {stack data rest : Bytes} {content : Content}
    (h : Committed c root.buffer (stack ++ data)) (hread : Content.deserialize data = .ok (content, rest)) :
    ∃ proof, KeyValueProof.new proof = .ok ⟨proof, content.key, content.value⟩ ∧
      proof.verify c root = true := by
  rcases h.exists_run with ⟨operations, hrun⟩
  let proof : MerkleProof := ⟨.load stack :: .value data :: operations⟩
  have hvalues : ∃ others, proof.values = data :: others := ⟨_, rfl⟩
  rcases hvalues with ⟨others, hvalues⟩
  refine ⟨proof, ?_, decide_eq_true hrun⟩
  simp only [KeyValueProof.new, hvalues, hread, Result.ok_bind, Result.pure_eq]

end Programs

/-! ## Cutting values -/

open Library.BigEndian in
/-- A content without its last byte still reads: the value is what is left of it. -/
theorem Content.deserialize_dropLast {content : Content} (h : content.value ≠ []) :
    ∃ content', Content.deserialize content.bytes.dropLast = .ok (content', []) ∧
      content'.key = content.key ∧ content'.value = content.value.dropLast := by
  have hkey := content.key_lt
  have hvalue := content.value_lt
  have hlt : content.value.dropLast.length < 2 ^ 31 := by
    rw [List.length_dropLast]
    omega
  refine ⟨⟨content.key, content.value.dropLast, hkey, hlt⟩, ?_, rfl, rfl⟩
  have hcut : content.bytes.dropLast = toBytes 4 content.key.length ++ content.key ++
      (toBytes 4 content.value.length ++ content.value.dropLast) := by
    rw [Content.bytes, List.dropLast_append_of_ne_nil (by simp [h]),
      List.dropLast_append_of_ne_nil h]
  -- the length of the value is that of the whole, and `consume` does not mind
  have hleft : consume content.value.length content.value.dropLast =
      (content.value.dropLast, []) := by
    have hle : content.value.dropLast.length ≤ content.value.length := by
      rw [List.length_dropLast]
      omega
    rw [consume, List.take_of_length_le hle, List.drop_eq_nil_of_le hle]
  rw [hcut]
  simp only [Content.deserialize, List.append_assoc,
    UInt32.deserialize_append (UInt32.serialize_of_lt (show content.key.length < 2 ^ 32 by omega)),
    UInt32.deserialize_append
      (UInt32.serialize_of_lt (show content.value.length < 2 ^ 32 by omega)),
    Result.ok_bind, consume_append, hleft, hkey, hlt, and_self, dite_true, Result.pure_eq]

/-- Where a content stands on a stack, its value can be cut short. -/
theorem Committed.cut_value {c : Crypto} {root : Hash} {stack : Bytes} {content : Content}
    (hcommitted : Committed c root.buffer (stack ++ content.bytes)) (h : content.value ≠ []) :
    ∃ proof, KeyValueProof.new proof = .ok ⟨proof, content.key, content.value.dropLast⟩ ∧
      proof.verify c root = true := by
  rcases Content.deserialize_dropLast h with ⟨content', hread, hkey, hvalue⟩
  have hne : content.bytes ≠ [] := by
    simp [Content.bytes, h]
  rw [← List.dropLast_append_getLast hne, ← List.append_assoc] at hcommitted
  rw [← hkey, ← hvalue]
  exact hcommitted.cut.exists_proof hread

/-! ## The proofs of a trie -/

namespace MerklePatriciaTrie

section Soundness

variable {c : Crypto} {trie : MerklePatriciaTrie} {t : TrieTree}

variable (c trie) in
/-- Every program that a `KeyValueProof` takes, and that verifies against the root, proves an entry. -/
def ProofsSound : Prop :=
  ∀ proof kv, KeyValueProof.new proof = .ok kv → kv.verify c trie.rootHash = true →
    get kv.key trie = .ok (some kv.value) trie

/-- The entries of a trie stand on stacks that its root commits to. -/
theorem Sound.committed (h : Sound c trie t) {key : Bytes} {content : Content}
    (hlookup : t.lookup (Key.bufferToKey key) = some content) :
    ∃ stack, Committed c trie.rootHash.buffer (stack ++ content.bytes) := by
  rcases h.prove_some hlookup with ⟨kv, -, -, -, hvalues, hverify⟩
  exact committed_of_verify hverify hvalues

/-- An entry, as `get` finds it. -/
theorem Sound.lookup_of_get (h : Sound c trie t) {key value : Bytes}
    (hget : get key trie = .ok (some value) trie) :
    ∃ content, t.lookup (Key.bufferToKey key) = some content ∧ content.key = key ∧
      content.value = value := by
  rw [h.get] at hget
  rcases EStateM.Result.ok.inj hget with ⟨hvalue, -⟩
  rcases Option.map_eq_some_iff.mp hvalue with ⟨content, hlookup, rfl⟩
  exact ⟨content, hlookup, Key.bufferToKey_injective (h.located _ content hlookup), rfl⟩

/-- For every entry with a value there is a verifying proof of the value without its last byte. -/
theorem Sound.verifies_dropLast (h : Sound c trie t) {key value : Bytes}
    (hget : get key trie = .ok (some value) trie) (hne : value ≠ []) :
    ∃ proof kv, KeyValueProof.new proof = .ok kv ∧ kv.verify c trie.rootHash = true ∧
      kv.key = key ∧ kv.value = value.dropLast := by
  rcases h.lookup_of_get hget with ⟨content, hlookup, rfl, rfl⟩
  rcases h.committed hlookup with ⟨stack, hcommitted⟩
  rcases hcommitted.cut_value hne with ⟨proof, hnew, hverify⟩
  exact ⟨proof, _, hnew, hverify, rfl, rfl⟩

end Soundness

/-- The bytes of the only content with the last one, which is the value, loaded apart. -/
def cutProof : MerkleProof :=
  ⟨[.value cat.bytes.dropLast, .load [1], .hash cat.bytes.length]⟩

/-- The proof of an empty value for a key whose value is not empty. -/
theorem cut_value_verifies :
    ∃ trie kv, run .transparent [.set cat] (new .transparent) = .ok () trie ∧
      CollisionFree .transparent [[], cat.bytes] ∧ KeyValueProof.new cutProof = .ok kv ∧
      kv.verify .transparent trie.rootHash = true ∧ kv.key = cat.key ∧ kv.value = [] ∧
      get kv.key trie = .ok (some [1]) trie ∧ ¬ ProofsSound .transparent trie := by
  have hc : NoCollision .transparent
      (Fallible.final (run .transparent [.set cat] (new .transparent))).saved := by decide +kernel
  rcases run_sound [.set cat] hc with ⟨trie, t, hrun, hsound, hmap⟩
  have hget : get cat.key trie = .ok (some [1]) trie := by
    rw [hsound.get, hmap]
    rfl
  have hverify : cutProof.verify .transparent trie.rootHash = true := by
    have hroot : cutProof.verify .transparent (Fallible.final
        (run .transparent [.set cat] (new .transparent))).rootHash = true := by decide +kernel
    rw [hrun] at hroot
    exact hroot
  have hnew : KeyValueProof.new cutProof = .ok ⟨cutProof, cat.key, []⟩ := by decide +kernel
  refine ⟨trie, _, hrun, by decide +kernel, hnew, hverify, rfl, rfl, hget, ?_⟩
  intro hproofs
  have hempty := hproofs cutProof _ hnew hverify
  rw [hget] at hempty
  cases hempty

end MerklePatriciaTrie

end UniqysKit
