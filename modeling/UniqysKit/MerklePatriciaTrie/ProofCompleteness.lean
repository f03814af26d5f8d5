import UniqysKit.MerklePatriciaTrie.MerkleProof
import UniqysKit.MerklePatriciaTrie.Refinement

/-!
# Trie proofs are complete

The program that `Node.prove` writes pushes the hash of the node, whatever is on the stack before
(`Pushes`): the operations for the children push their hashes, those for the child that is followed
by induction, and the content comes last, as in `Node.hash`.  Squashing loads changes nothing that can
be seen.  So the program of a root ends in the root hash (`prove_complete`).
-/

namespace UniqysKit

open Library

namespace MerkleProof

variable {c : Crypto}

/-! ## Programs that push bytes -/

@[simp] theorem run_append (first second : List Operation) (stack : Bytes) :
    run c (first ++ second) stack = run c second (run c first stack) :=
  List.foldl_append

variable (c) in
/-- The operations put the bytes on the stack, and `resultSize` counts them. -/
structure Pushes (operations : List Operation) (bytes : Bytes) : Prop where
  size : (operations.map Operation.size).sum = bytes.length
  run : ∀ stack, run c operations stack = stack ++ bytes

namespace Pushes

theorem nil : Pushes c [] [] := ⟨rfl, fun stack => (List.append_nil stack).symm⟩

theorem load (data : Bytes) : Pushes c [.load data] data :=
  ⟨by simp [Operation.size], fun _ => rfl⟩

theorem value (data : Bytes) : Pushes c [.value data] data :=
  ⟨by simp [Operation.size], fun _ => rfl⟩

theorem append {first second : List Operation} {bytes bytes' : Bytes} (h : Pushes c first bytes)
    (h' : Pushes c second bytes') : Pushes c (first ++ second) (bytes ++ bytes') := by
  refine ⟨?_, ?_⟩
  · rw [List.map_append, List.sum_append, h.size, h'.size, List.length_append, Nat.cast_add]
  · intro stack
    rw [run_append, h.run, h'.run, List.append_assoc]

theorem flatMap {ι : Type} {l : List ι} {operations : ι → List Operation} {bytes : ι → Bytes}
    (h : ∀ i ∈ l, Pushes c (operations i) (bytes i)) :
    Pushes c (l.flatMap operations) (l.flatMap bytes) := by
  induction l with
  | nil => exact nil
  | cons i l ih =>
      rw [List.flatMap_cons, List.flatMap_cons]
      exact (h i List.mem_cons_self).append (ih fun j hj => h j (List.mem_cons_of_mem i hj))

/-- `hash` consumes all that the operations before it have pushed, and nothing else. -/
theorem hash {proof : MerkleProof} {bytes : Bytes} (h : Pushes c proof.operations bytes) :
    Pushes c proof.hash.operations (Hash.fromData c bytes).buffer := by
  have hsize : proof.resultSize = bytes.length := h.size
  refine ⟨?_, ?_⟩
  · rw [MerkleProof.hash, List.map_append, List.sum_append, h.size, hsize,
      (Hash.fromData c bytes).size]
    simp [Operation.size]
  · intro stack
    rw [MerkleProof.hash, run_append, h.run, hsize]
    exact Operation.step_hash c stack bytes

end Pushes

/-! ## Squashing loads -/

/-- What `optimize` has of the operations so far. -/
def squashed (state : Option Operation × List Operation) : List Operation :=
  state.2 ++ state.1.toList

/-- A turn of the loop adds the operation, or its bytes to the last load. -/
theorem squashed_squash (state : Option Operation × List Operation) (op : Operation) :
    squashed (squash state op) = squashed state ++ [op] ∨
      ∃ ops data data', squashed state = ops ++ [.load data] ∧ op = .load data' ∧
        squashed (squash state op) = ops ++ [.load (data ++ data')] := by
  fun_cases squash state op with
  | case1 ops op => exact .inl (by simp [squashed])
  | case2 data ops data' => exact .inr ⟨ops, data, data', rfl, rfl, rfl⟩
  | case3 ops top op => exact .inl (by simp [squashed])

/-- What does not tell two loads from one with the bytes of both, `optimize` leaves unchanged. -/
theorem optimize_eq {β : Type} (f : List Operation → β)
    (hf : ∀ ops data data' rest,
      f (ops ++ .load (data ++ data') :: rest) = f (ops ++ .load data :: .load data' :: rest))
    (proof : MerkleProof) : f proof.optimize.operations = f proof.operations := by
  suffices h : ∀ operations state,
      f (squashed (operations.foldl squash state)) = f (squashed state ++ operations) from
    h proof.operations (none, [])
  intro operations
  induction operations with
  | nil => simp
  | cons op operations ih =>
      intro state
      rw [List.foldl_cons, ih]
      rcases squashed_squash state op with h | ⟨ops, data, data', hstate, rfl, h⟩
      · rw [h, List.append_assoc, List.singleton_append]
      · rw [h, hstate, List.append_assoc, List.append_assoc]
        exact hf ops data data' operations

theorem run_optimize (proof : MerkleProof) (stack : Bytes) :
    run c proof.optimize.operations stack = run c proof.operations stack := by
  refine optimize_eq (fun operations => run c operations stack) ?_ proof
  intro ops data data' rest
  simp [run, Operation.step]

theorem values_optimize (proof : MerkleProof) : proof.optimize.values = proof.values := by
  refine optimize_eq (fun operations => operations.filterMap Operation.data?) ?_ proof
  intro ops data data' rest
  rw [List.filterMap_append, List.filterMap_append]
  rfl

end MerkleProof

/-! ## Proofs along a path -/

open MerkleProof

section Path

variable {c : Crypto} {st : TrieStore}

/-- Only one of the places in a list counts. -/
theorem flatMap_ite {ι α : Type} [DecidableEq ι] {l : List ι} (hnodup : l.Nodup) {i : ι} (hi : i ∈ l)
    (as : List α) : (l.flatMap fun j => if j = i then as else []) = as := by
  rcases List.append_of_mem hi with ⟨before, after, rfl⟩
  have hnot : i ∉ before ∧ i ∉ after := by
    rw [List.nodup_append, List.nodup_cons] at hnodup
    exact ⟨fun hmem => hnodup.2.2 i hmem i List.mem_cons_self rfl, hnodup.2.1.1⟩
  have hnil : ∀ l : List ι, i ∉ l → (l.flatMap fun j => if j = i then as else []) = [] := by
    intro l hl
    rw [List.flatMap_eq_nil_iff]
    intro j hj
    rw [if_neg]
    rintro rfl
    exact hl hj
  rw [List.flatMap_append, List.flatMap_cons, if_pos rfl, hnil before hnot.1, hnil after hnot.2]
  simp

/-- The bytes that a child adds to the pre-image of its parent. -/
def Child.hashBytes (c : Crypto) (child : Child) : Bytes :=
  (child.hash c).toList.flatMap Hash.serialize

theorem Child.pushes_load (child : Child) : Pushes c (child.load c) (child.hashBytes c) := by
  cases hhash : child.hash c with
  | none =>
      rw [Child.load, Child.hashBytes, hhash]
      exact .nil
  | some hash =>
      rw [Child.load, Child.hashBytes, hhash]
      simpa [Hash.serialize] using Pushes.load (c := c) hash.buffer

theorem Child.data_load (child : Child) : (child.load c).filterMap Operation.data? = [] := by
  cases hhash : child.hash c with
  | none =>
      rw [Child.load, hhash]
      rfl
  | some hash =>
      rw [Child.load, hhash]
      rfl

/-- What the hash of a node is taken of. -/
theorem Node.hash_eq (node : Node) :
    node.hash c = Hash.fromData c
      (((List.finRange 16).flatMap fun i => (node.children i).hashBytes c) ++
        (node.content.map Content.bytes).getD []) := by
  rw [Node.hash, PreImage.hash, Node.preImage, PreImage.bytes, List.filterMap_eq_flatMap_toList,
    List.flatMap_assoc]
  rfl

/-- The hash that a child has in its parent is the one of the node it leads to. -/
theorem Resolves.hash_eq {child : Child} {t : TrieTree} {node : Node} (h : Resolves c st child t)
    (hnode : NodeResolves c st node t) : child.hash c = some (node.hash c) := by
  rw [h.hash, ← hnode.toChild.hash]
  rfl

/-- The program for the children pushes their hashes, with the one that is followed in its place. -/
theorem pushes_children {node : Node} {letter : Fin 16} {below : MerkleProof} {hash : Hash}
    (hchild : (node.children letter).hash c = some hash)
    (hbelow : Pushes c below.operations hash.buffer) :
    Pushes c ((List.finRange 16).flatMap fun i =>
        if i = letter then below.operations else (node.children i).load c)
      ((List.finRange 16).flatMap fun i => (node.children i).hashBytes c) := by
  refine .flatMap ?_
  intro i _
  split
  · rename_i hi
    subst hi
    have hbytes : (node.children i).hashBytes c = hash.buffer := by
      rw [Child.hashBytes, hchild]
      exact List.append_nil _
    rw [hbytes]
    exact hbelow
  · exact (node.children i).pushes_load

/-- The program for the children shows what the program of the one that is followed shows. -/
theorem data_children (node : Node) (letter : Fin 16) (below : MerkleProof) :
    ((List.finRange 16).flatMap fun i =>
      if i = letter then below.operations else (node.children i).load c).filterMap Operation.data? =
        below.values := by
  rw [List.filterMap_flatMap]
  refine Eq.trans ?_ (flatMap_ite (List.nodup_finRange 16) (List.mem_finRange letter) below.values)
  congr 1
  funext i
  split
  · rfl
  · exact (node.children i).data_load

/-- `prove` writes a program for the hash of the node, or throws where the key is not there. -/
theorem NodeResolves.prove {node : Node} {t : TrieTree} (h : NodeResolves c st node t) (key : Key) :
    match t.lookup key with
    | none => ∃ e, node.prove c st key = .error e
    | some content => ∃ proof, node.prove c st key = .ok proof ∧
        Pushes c proof.operations (node.hash c).buffer ∧ proof.values = [content.bytes] := by
  fun_induction Node.prove c st node key generalizing t with
  | case1 =>
      rename_i node key _ content hrest hcontent hremain proof
      rcases h with ⟨below, rfl, -⟩
      -- the key ends at this node, which has a content
      rw [Key.eq_of_remain hremain hrest, Patricia.lookup_label, hcontent]
      refine ⟨_, by rw [Content.serialize_eq]; rfl, ?_, ?_⟩
      · rw [node.hash_eq, hcontent]
        refine Pushes.hash (.append (.flatMap ?_) (.value _))
        intro i _
        exact (node.children i).pushes_load
      -- the children are loaded as hashes and bring no value
      · have hloads : proof.operations.filterMap Operation.data? = [] := by
          rw [List.filterMap_flatMap, List.flatMap_eq_nil_iff]
          intro i _
          exact (node.children i).data_load
        simp only [values, MerkleProof.hash, MerkleProof.value, List.filterMap_append, hloads]
        rfl
  | case2 =>
      rename_i node key _ hrest hcontent hremain
      rcases h with ⟨below, rfl, -⟩
      rw [Key.eq_of_remain hremain hrest, Patricia.lookup_label, hcontent]
      exact ⟨_, rfl⟩
  | case3 =>
      rename_i node key _ letter rest hrest hremain child hchild ih
      rcases h with ⟨below, rfl, hbelow⟩
      -- the key goes on below a child, and so does the proof
      rcases (hbelow letter).of_dereference hchild with ⟨next, rfl, hnext⟩
      have hhash := (hbelow letter).hash_eq hnext
      have hproven := ih next hnext
      rw [Key.eq_append_cons hremain hrest, Patricia.lookup_append_cons]
      cases hlookup : (below letter).lookup rest with
      | none =>
          rw [hlookup] at hproven
          rcases hproven with ⟨e, herror⟩
          exact ⟨e, by rw [Result.ok_bind, herror, Result.error_bind]⟩
      | some content =>
          rw [hlookup] at hproven
          rcases hproven with ⟨proof, hok, hpushes, hvalues⟩
          have hchildren := pushes_children hhash hpushes
          have hdata := data_children (c := c) node letter proof
          rw [hvalues] at hdata
          simp only [Result.ok_bind, hok]
          rw [node.hash_eq]
          cases hcontent : node.content with
          | none =>
              refine ⟨_, rfl, ?_, ?_⟩
              · rw [Option.map_none, Option.getD_none, List.append_nil]
                exact Pushes.hash hchildren
              · simp only [values, MerkleProof.hash, List.filterMap_append, hdata]
                rfl
          | some own =>
              refine ⟨_, by simp only [Content.serialize_eq]; rfl, ?_, ?_⟩
              · exact Pushes.hash (hchildren.append (.load _))
              · simp only [values, MerkleProof.hash, MerkleProof.load, List.filterMap_append, hdata]
                rfl
  | case4 =>
      rename_i node key _ letter rest hrest hremain hchild
      rcases h with ⟨below, rfl, hbelow⟩
      rw [Key.eq_append_cons hremain hrest, Patricia.lookup_append_cons,
        (hbelow letter).of_dereference_none hchild, Patricia.lookup_nil]
      exact ⟨_, rfl⟩
  | case5 =>
      rename_i node key _ letter rest hremain
      rcases h with ⟨below, rfl, -⟩
      -- the key leaves the path of the trie within the label
      rw [Patricia.lookup_eq_none_of (Key.not_start hremain)]
      exact ⟨_, rfl⟩

end Path

/-! ## The trie -/

namespace MerklePatriciaTrie

variable {c : Crypto} {trie : MerklePatriciaTrie} {t : TrieTree}

theorem reading_error {α : Type} {f : TrieStore → Result α} {e : Error}
    (h : f trie.store = .error e) : reading f trie = .error e trie := by
  simp only [reading, h]

/-- The proof of a key that is in the tree shows its content, and ends in the root hash. -/
theorem Sound.prove_some (h : Sound c trie t) {key : Bytes} {content : Content}
    (hlookup : t.lookup (Key.bufferToKey key) = some content) :
    ∃ kv, MerklePatriciaTrie.prove c key trie = .ok kv trie ∧ kv.key = key ∧
      kv.value = content.value ∧ kv.proof.values = [content.bytes] ∧
      kv.verify c trie.rootHash = true := by
  rcases h.root with ⟨node, t₀, hroot, hnode, hsame, -, hhash⟩
  have hproven := hnode.prove (Key.bufferToKey key)
  rw [hsame, hlookup] at hproven
  rcases hproven with ⟨proof, hok, hpushes, hvalues⟩
  have hread := @reading_ok trie _ (fun store => node.prove c store (Key.bufferToKey key)) _ hok
  have hfirst : proof.optimize.values = [content.bytes] := by
    rw [values_optimize, hvalues]
  have hkey : content.key = key := Key.bufferToKey_injective (h.located _ content hlookup)
  have hdeserialize := content.deserialize_append []
  rw [List.append_nil] at hdeserialize
  have hnew : KeyValueProof.new proof.optimize = .ok ⟨proof.optimize, content.key, content.value⟩ := by
    simp only [KeyValueProof.new, hfirst, hdeserialize, Result.ok_bind, Result.pure_eq]
  refine ⟨⟨proof.optimize, content.key, content.value⟩, ?_, hkey, rfl, hfirst, ?_⟩
  · rw [MerklePatriciaTrie.prove, Fallible.bind_ok hroot, Fallible.bind_ok hread, hnew]
    rfl
  · rw [KeyValueProof.verify, verify, calculate, run_optimize, hpushes.run, hhash]
    simp

/-- The proof of another key is refused. -/
theorem Sound.prove_none (h : Sound c trie t) {key : Bytes}
    (hlookup : t.lookup (Key.bufferToKey key) = none) :
    ∃ e, MerklePatriciaTrie.prove c key trie = .error e trie := by
  rcases h.root with ⟨node, t₀, hroot, hnode, hsame, -, -⟩
  have hproven := hnode.prove (Key.bufferToKey key)
  rw [hsame, hlookup] at hproven
  rcases hproven with ⟨e, herror⟩
  have hread :=
    @reading_error trie _ (fun store => node.prove c store (Key.bufferToKey key)) _ herror
  refine ⟨e, ?_⟩
  rw [MerklePatriciaTrie.prove, Fallible.bind_ok hroot, Fallible.bind_error hread]

/-- On every run from a fresh trie, `prove` throws exactly where `get` finds nothing, and otherwise
gives a proof of the key and the value that verifies against the root. -/
theorem prove_complete (c : Crypto) (ops : List Operation)
    (h : NoCollision c (Fallible.final (run c ops (new c))).saved) :
    ∃ trie, run c ops (new c) = .ok () trie ∧ ∀ key,
      ((∃ e, prove c key trie = .error e trie) ↔ get key trie = .ok none trie) ∧
      ∀ value, get key trie = .ok (some value) trie →
        ∃ kv, prove c key trie = .ok kv trie ∧ kv.key = key ∧ kv.value = value ∧
          kv.verify c trie.rootHash = true := by
  rcases run_sound ops h with ⟨trie, t, hrun, hsound, -⟩
  refine ⟨trie, hrun, ?_⟩
  intro key
  rw [hsound.get]
  cases hlookup : t.lookup (Key.bufferToKey key) with
  | none =>
      refine ⟨⟨fun _ => rfl, fun _ => hsound.prove_none hlookup⟩, ?_⟩
      intro value hvalue
      cases hvalue
  | some content =>
      rcases hsound.prove_some hlookup with ⟨kv, hprove, hkey, hvalue, -, hverify⟩
      refine ⟨⟨?_, ?_⟩, ?_⟩
      · rintro ⟨e, herror⟩
        rw [hprove] at herror
        cases herror
      · intro hnone
        cases hnone
      · intro value hget
        cases hget
        exact ⟨kv, hprove, hkey, hvalue, hverify⟩

/-- A key at a leaf, a key at a branch that other keys start with, and one that is not there. -/
theorem prove_complete_catDog :
    ∃ trie, run .transparent [.set cat, .set dog, .set catalog] (new .transparent) = .ok () trie ∧
      ∀ key, ((∃ e, prove .transparent key trie = .error e trie) ↔ get key trie = .ok none trie) ∧
        ∀ value, get key trie = .ok (some value) trie →
          ∃ kv, prove .transparent key trie = .ok kv trie ∧ kv.key = key ∧ kv.value = value ∧
            kv.verify .transparent trie.rootHash = true :=
  prove_complete .transparent [.set cat, .set dog, .set catalog] (by decide +kernel)

end MerklePatriciaTrie

end UniqysKit
