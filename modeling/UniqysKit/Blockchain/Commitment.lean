import UniqysKit.Blockchain.Block

/-!
# What a header pins down

A block header names its body by two hashes, and a validator set is named by its Merkle root.  The
Merkle root sorts the two halves of a node, so their order is lost by design; everything else about
the order of the items is left (`header_pins_body`).  Collision-freedom is only asked of the buffers
that the two computations under comparison hash.

For transactions this needs that none of them serializes to 64 bytes, the size of an inner node of
the tree: `header_admits_two_bodies` shows both limits on concrete blocks.
-/

namespace UniqysKit

open Library.BigEndian

/-! ## The buffers that are hashed -/

/-- Hashing each item and taking the root is the root over the buffers of the items. -/
theorem MerkleTree.root_map {α : Type} (c : Crypto) (f : α → Bytes) (items : List α) :
    MerkleTree.root c (items.map (fun item => Hash.fromData c (f item))) =
      MerkleTree.rootOfData c (items.map f) := by
  simp [MerkleTree.rootOfData, Function.comp_def]

def TransactionList.hashed (c : Crypto) (list : TransactionList) : List Bytes :=
  MerkleTree.hashedOfData c (list.transactions.map Transaction.serialize)

def Consensus.hashed (c : Crypto) (consensus : Consensus) : List Bytes :=
  match consensus.vote.serialize with
  | .ok vote =>
      vote :: ((Hash.fromData c vote).buffer ++
        (MerkleTree.root c (consensus.signatures.map (Signature.hash c))).buffer) ::
        MerkleTree.hashedOfData c (consensus.signatures.map Signature.buffer)
  | .error _ => []

def BlockBody.hashed (c : Crypto) (body : BlockBody) : List Bytes :=
  body.transactionList.hashed c ++ body.lastBlockConsensus.hashed c

def ValidatorSet.hashed (c : Crypto) (vs : ValidatorSet) : List Bytes :=
  match vs.validators.mapM Validator.serialize with
  | .ok items => MerkleTree.hashedOfData c items
  | .error _ => []

/-! ## Transactions -/

/-- A transaction whose serialization could be taken for an inner node of the Merkle tree. -/
def Transaction.PairSized (tx : Transaction) : Prop := tx.serialize.length = 64

theorem Transaction.isLeaf {tx : Transaction} (h : ¬ tx.PairSized) :
    MerkleTree.IsLeaf tx.serialize := by
  refine ⟨fun hnil => ?_, h⟩
  have hlen := tx.length_serialize
  rw [hnil, List.length_nil] at hlen
  omega

theorem TransactionList.sameHalves_of_hash_eq {c : Crypto} {list list' : TransactionList}
    (hleaf : ∀ tx ∈ list.transactions, ¬ tx.PairSized)
    (hleaf' : ∀ tx ∈ list'.transactions, ¬ tx.PairSized)
    (hfree : CollisionFree c (list.hashed c ++ list'.hashed c)) (h : list.hash c = list'.hash c) :
    MerkleTree.SameHalves list.transactions list'.transactions := by
  have hroot : MerkleTree.rootOfData c (list.transactions.map Transaction.serialize) =
      MerkleTree.rootOfData c (list'.transactions.map Transaction.serialize) := by
    rw [← MerkleTree.root_map, ← MerkleTree.root_map]
    exact h
  have hisLeaf : ∀ l : List Transaction, (∀ tx ∈ l, ¬ tx.PairSized) →
      ∀ item ∈ l.map Transaction.serialize, MerkleTree.IsLeaf item := by
    intro l hl item hitem
    rcases List.mem_map.1 hitem with ⟨tx, htx, rfl⟩
    exact Transaction.isLeaf (hl tx htx)
  have hsame := (MerkleTree.rootOfData_eq_iff c (hisLeaf _ hleaf) (hisLeaf _ hleaf') hfree).1 hroot
  exact hsame.of_map Transaction.serialize_injective

/-! ## Certificates -/

theorem Vote.serialize_inj {vote vote' : Vote} {bytes : Bytes} (h : vote.serialize = .ok bytes)
    (h' : vote'.serialize = .ok bytes) : vote = vote' := by
  rcases Result.bind_eq_ok.1 h with ⟨hb, hheight, hrest⟩
  rcases Result.bind_eq_ok.1 hrest with ⟨rb, hround, hbytes⟩
  rcases Result.bind_eq_ok.1 h' with ⟨hb', hheight', hrest'⟩
  rcases Result.bind_eq_ok.1 hrest' with ⟨rb', hround', hbytes'⟩
  cases hbytes
  have hEq : hb ++ rb ++ vote.blockHash.serialize = hb' ++ rb' ++ vote'.blockHash.serialize := by
    simpa using hbytes'.symm
  -- Reading the two numbers back from the same bytes gives the same numbers.
  have hread := UInt64.deserialize_append hheight (rb ++ vote.blockHash.serialize)
  rw [← List.append_assoc, hEq, List.append_assoc, UInt64.deserialize_append hheight'] at hread
  simp only [Except.ok.injEq, Prod.mk.injEq] at hread
  have hreadRound := UInt32.deserialize_append hround vote.blockHash.serialize
  rw [← hread.2, UInt32.deserialize_append hround'] at hreadRound
  simp only [Except.ok.injEq, Prod.mk.injEq] at hreadRound
  have hhash : vote'.blockHash = vote.blockHash := Hash.ext hreadRound.2
  cases vote
  cases vote'
  simp_all

/-- Signatures are 65 bytes long, so they never look like an inner node. -/
theorem Signature.isLeaf (s : Signature) : MerkleTree.IsLeaf s.buffer := by
  have hsize := s.size
  refine ⟨fun hnil => ?_, by omega⟩
  rw [hnil] at hsize
  cases hsize

theorem Consensus.eq_of_hash_eq {c : Crypto} {consensus consensus' : Consensus} {h : Hash}
    (hfree : CollisionFree c (consensus.hashed c ++ consensus'.hashed c))
    (hh : consensus.hash c = .ok h) (hh' : consensus'.hash c = .ok h) :
    consensus.vote = consensus'.vote ∧
      MerkleTree.SameHalves consensus.signatures consensus'.signatures := by
  rcases Result.bind_eq_ok.1 hh with ⟨vote, hvote, hEq⟩
  rcases Result.bind_eq_ok.1 hh' with ⟨vote', hvote', hEq'⟩
  simp only [Result.pure_eq, Except.ok.injEq] at hEq hEq'
  have hlist : consensus.hashed c = vote :: ((Hash.fromData c vote).buffer ++
      (MerkleTree.root c (consensus.signatures.map (Signature.hash c))).buffer) ::
      MerkleTree.hashedOfData c (consensus.signatures.map Signature.buffer) := by
    simp only [Consensus.hashed, hvote]
  have hlist' : consensus'.hashed c = vote' :: ((Hash.fromData c vote').buffer ++
      (MerkleTree.root c (consensus'.signatures.map (Signature.hash c))).buffer) ::
      MerkleTree.hashedOfData c (consensus'.signatures.map Signature.buffer) := by
    simp only [Consensus.hashed, hvote']
  rw [hlist, hlist'] at hfree
  -- both halves under the last hash are equal, and they have a fixed length
  have hpair := hfree _ (by simp) _ (by simp) (hEq.trans hEq'.symm)
  rcases List.append_inj hpair (by simp [Hash.size]) with ⟨hleft, hright⟩
  have hvotes : vote = vote' := hfree _ (by simp) _ (by simp) (Hash.ext hleft)
  subst hvotes
  refine ⟨Vote.serialize_inj hvote hvote', ?_⟩
  -- the other half is the Merkle root of the signatures
  have hroot : MerkleTree.rootOfData c (consensus.signatures.map Signature.buffer) =
      MerkleTree.rootOfData c (consensus'.signatures.map Signature.buffer) := by
    rw [← MerkleTree.root_map, ← MerkleTree.root_map]
    exact Hash.ext hright
  have hleaf : ∀ l : List Signature, ∀ item ∈ l.map Signature.buffer, MerkleTree.IsLeaf item := by
    intro l item hitem
    rcases List.mem_map.1 hitem with ⟨s, -, rfl⟩
    exact s.isLeaf
  have hsub : CollisionFree c
      (MerkleTree.hashedOfData c (consensus.signatures.map Signature.buffer) ++
        MerkleTree.hashedOfData c (consensus'.signatures.map Signature.buffer)) := by
    refine hfree.mono (List.append_subset.2 ⟨?_, ?_⟩)
    · exact fun x hx => List.mem_append_left _ (List.mem_cons_of_mem _ (List.mem_cons_of_mem _ hx))
    · exact fun x hx => List.mem_append_right _ (List.mem_cons_of_mem _ (List.mem_cons_of_mem _ hx))
  have hsame := (MerkleTree.rootOfData_eq_iff c (hleaf _) (hleaf _) hsub).1 hroot
  exact hsame.of_map (fun _ _ h => Signature.ext h)

/-! ## Validator sets -/

/-- The validators of a set that has a hash are all encodable, and the hash is the root over their
encodings. -/
theorem ValidatorSet.exists_items_of_hash {c : Crypto} {vs : ValidatorSet} {h : Hash}
    (hh : vs.hash c = .ok h) :
    ∃ items, vs.validators.mapM Validator.serialize = .ok items ∧
      h = MerkleTree.rootOfData c items := by
  rcases Result.bind_eq_ok.1 hh with ⟨hashes, hhashes, hroot⟩
  cases hroot
  -- a validator that has a hash can be serialized, and the hash is that of the bytes
  suffices hmap : ∀ (l : List Validator) (hs : List Hash), l.mapM (Validator.hash c) = .ok hs →
      ∃ items, l.mapM Validator.serialize = .ok items ∧ hs = items.map (Hash.fromData c) by
    rcases hmap _ _ hhashes with ⟨items, hitems, rfl⟩
    exact ⟨items, hitems, rfl⟩
  intro l
  induction l with
  | nil =>
      intro hs hl
      cases hl
      exact ⟨[], rfl, rfl⟩
  | cons v rest ih =>
      intro hs hl
      rw [List.mapM_cons] at hl
      rcases Result.bind_eq_ok.1 hl with ⟨hv, hvhash, hl⟩
      rcases Result.bind_eq_ok.1 hl with ⟨hrest, hrestOk, hl⟩
      rcases Result.bind_eq_ok.1 hvhash with ⟨bytes, hbytes, hvEq⟩
      rcases ih _ hrestOk with ⟨items, hitems, rfl⟩
      cases hl
      cases hvEq
      exact ⟨bytes :: items, by simp [List.mapM_cons, hbytes, hitems], rfl⟩

/-- Reading the encodings of a list of validators back. -/
theorem Validator.map_deserialize {l : List Validator} {items : List Bytes}
    (h : l.mapM Validator.serialize = .ok items) :
    items.map Validator.deserialize = l.map (fun v => .ok (v, [])) ∧
      ∀ item ∈ items, item.length = 28 := by
  induction l generalizing items with
  | nil =>
      cases h
      simp
  | cons v rest ih =>
      rw [List.mapM_cons] at h
      rcases Result.bind_eq_ok.1 h with ⟨bytes, hbytes, h⟩
      rcases Result.bind_eq_ok.1 h with ⟨tail, htail, h⟩
      cases h
      have hread := Validator.deserialize_append hbytes []
      rw [List.append_nil] at hread
      refine ⟨by simp [hread, (ih htail).1], ?_⟩
      intro item hitem
      rcases List.mem_cons.1 hitem with rfl | hitem
      · exact Validator.length_serialize hbytes
      · exact (ih htail).2 item hitem

theorem ValidatorSet.sameHalves_of_hash_eq {c : Crypto} {vs vs' : ValidatorSet} {h : Hash}
    (hfree : CollisionFree c (vs.hashed c ++ vs'.hashed c))
    (hh : vs.hash c = .ok h) (hh' : vs'.hash c = .ok h) :
    MerkleTree.SameHalves vs.validators vs'.validators := by
  rcases exists_items_of_hash hh with ⟨items, hitems, rfl⟩
  rcases exists_items_of_hash hh' with ⟨items', hitems', hroot⟩
  simp only [hashed, hitems, hitems'] at hfree
  have hread := Validator.map_deserialize hitems
  have hread' := Validator.map_deserialize hitems'
  have hleaf : ∀ {item : Bytes}, item.length = 28 → MerkleTree.IsLeaf item := by
    intro item hlen
    refine ⟨fun hnil => ?_, by omega⟩
    rw [hnil] at hlen
    cases hlen
  have hsame := (MerkleTree.rootOfData_eq_iff c (fun item hi => hleaf (hread.2 item hi))
    (fun item hi => hleaf (hread'.2 item hi)) hfree).1 hroot
  have hback := hsame.map Validator.deserialize
  rw [hread.1, hread'.1] at hback
  refine hback.of_map ?_
  intro v v' hv
  simpa using hv

/-! ## The commitment -/

/-- Two bodies that pass against one header carry the same transactions up to swapped halves (unless
one of them is as long as a pair of hashes), the same vote, and the same signatures up to swapped
halves.  Two validator sets with one hash have the same validators up to swapped halves. -/
theorem header_pins_body (c : Crypto) :
    (∀ (header : BlockHeader) (body body' : BlockBody),
      body.validate c header = .ok () → body'.validate c header = .ok () →
      CollisionFree c (body.hashed c ++ body'.hashed c) →
      (∀ tx ∈ body.transactionList.transactions, ¬ tx.PairSized) →
      (∀ tx ∈ body'.transactionList.transactions, ¬ tx.PairSized) →
      MerkleTree.SameHalves body.transactionList.transactions body'.transactionList.transactions ∧
        body.lastBlockConsensus.vote = body'.lastBlockConsensus.vote ∧
        MerkleTree.SameHalves body.lastBlockConsensus.signatures
          body'.lastBlockConsensus.signatures) ∧
    (∀ (vs vs' : ValidatorSet) (h : Hash), vs.hash c = .ok h → vs'.hash c = .ok h →
      CollisionFree c (vs.hashed c ++ vs'.hashed c) →
      MerkleTree.SameHalves vs.validators vs'.validators) := by
  refine ⟨?_, fun vs vs' h hh hh' hfree => ValidatorSet.sameHalves_of_hash_eq hfree hh hh'⟩
  intro header body body' hok hok' hfree hleaf hleaf'
  rcases BlockBody.validate_eq_ok_iff.1 hok with ⟨htx, hcons⟩
  rcases BlockBody.validate_eq_ok_iff.1 hok' with ⟨htx', hcons'⟩
  have hfreeTx : CollisionFree c
      (body.transactionList.hashed c ++ body'.transactionList.hashed c) := by
    refine hfree.mono (List.append_subset.2 ⟨?_, ?_⟩)
    · exact fun x hx => List.mem_append_left _ (List.mem_append_left _ hx)
    · exact fun x hx => List.mem_append_right _ (List.mem_append_left _ hx)
  have hfreeCons : CollisionFree c
      (body.lastBlockConsensus.hashed c ++ body'.lastBlockConsensus.hashed c) := by
    refine hfree.mono (List.append_subset.2 ⟨?_, ?_⟩)
    · exact fun x hx => List.mem_append_left _ (List.mem_append_right _ hx)
    · exact fun x hx => List.mem_append_right _ (List.mem_append_right _ hx)
  exact ⟨TransactionList.sameHalves_of_hash_eq hleaf hleaf' hfreeTx (htx.symm.trans htx'),
    Consensus.eq_of_hash_eq hfreeCons hcons hcons'⟩

section Samples

/-- A transaction that carries one byte. -/
def sampleTransaction (b : UInt8) : Transaction := ⟨0, [b], Transaction.zero_lt, by simp⟩

def sampleBody (transactions : List Transaction) : BlockBody :=
  ⟨⟨transactions⟩, ⟨⟨0, 1, Hash.zero⟩, []⟩⟩

/-- The header `Block.construct` makes for a body. -/
def sampleHeader (c : Crypto) (body : BlockBody) : BlockHeader where
  height := 2
  timestamp := 100
  lastBlockHash := Hash.zero
  transactionRoot := body.transactionList.hash c
  lastBlockConsensusRoot :=
    match body.lastBlockConsensus.hash c with
    | .ok h => h
    | .error _ => Hash.zero
  nextValidatorSetRoot := Hash.zero
  appStateHash := Hash.zero
  height_lt := by norm_num
  timestamp_lt := by norm_num

theorem header_pins_body_three :
    let body := sampleBody [sampleTransaction 1, sampleTransaction 2, sampleTransaction 3]
    let body' := sampleBody [sampleTransaction 2, sampleTransaction 1, sampleTransaction 3]
    body'.validate .transparent (sampleHeader .transparent body) = .ok () ∧
      MerkleTree.SameHalves body.transactionList.transactions
        body'.transactionList.transactions := by
  refine ⟨by decide +kernel, ?_⟩
  exact ((header_pins_body .transparent).1
    (sampleHeader .transparent
      (sampleBody [sampleTransaction 1, sampleTransaction 2, sampleTransaction 3]))
    (sampleBody [sampleTransaction 1, sampleTransaction 2, sampleTransaction 3])
    (sampleBody [sampleTransaction 2, sampleTransaction 1, sampleTransaction 3])
    (by decide +kernel) (by decide +kernel) (by decide +kernel)
    (by simp [sampleBody, sampleTransaction, Transaction.PairSized, Transaction.length_serialize])
    (by simp [sampleBody, sampleTransaction, Transaction.PairSized,
      Transaction.length_serialize])).1

/-- A hash whose first bytes read as a transaction type and the length 59. -/
def lengthLikeHash (b : UInt8) : Hash := ⟨[1, 0, 0, 0, 59] ++ List.replicate 27 b, by simp⟩

/-- A hash function that gives the two sample transactions hashes of that form. -/
def lengthLikeCrypto : Crypto :=
  { Crypto.transparent with
    keccak256 := fun data =>
      if data = (sampleTransaction 1).serialize then lengthLikeHash 1
      else if data = (sampleTransaction 2).serialize then lengthLikeHash 2
      else Crypto.transparent.keccak256 data }

/-- The transaction that serializes to the inner node over the two sample transactions. -/
def innerTransaction : Transaction :=
  ⟨1, ((lengthLikeHash 1).buffer ++ (lengthLikeHash 2).buffer).drop 5, Transaction.one_lt,
    by decide⟩

/-- Without any collision, two bodies with a different order pass against one header, and so do a
body with two transactions and a body with a single one. -/
theorem header_admits_two_bodies :
    (let body := sampleBody [sampleTransaction 1, sampleTransaction 2]
      let body' := sampleBody [sampleTransaction 2, sampleTransaction 1]
      CollisionFree .transparent (body.hashed .transparent ++ body'.hashed .transparent) ∧
        body.validate .transparent (sampleHeader .transparent body) = .ok () ∧
        body'.validate .transparent (sampleHeader .transparent body) = .ok () ∧
        body.transactionList.transactions ≠ body'.transactionList.transactions) ∧
    (let body := sampleBody [sampleTransaction 1, sampleTransaction 2]
      let body' := sampleBody [innerTransaction]
      CollisionFree lengthLikeCrypto (body.hashed lengthLikeCrypto ++
          body'.hashed lengthLikeCrypto) ∧
        body.validate lengthLikeCrypto (sampleHeader lengthLikeCrypto body) = .ok () ∧
        body'.validate lengthLikeCrypto (sampleHeader lengthLikeCrypto body) = .ok () ∧
        ¬ body.transactionList.transactions.Perm body'.transactionList.transactions) := by
  decide +kernel

end Samples

end UniqysKit
