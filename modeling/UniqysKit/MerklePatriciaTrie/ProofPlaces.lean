import UniqysKit.MerklePatriciaTrie.ProofSoundness

/-!
# Values that stand where the trie has them

The sizes of the operations say where the first value of a program ends up: at which offset of a
hashed byte string, at which offset the hash of that string is hashed in turn, and so on up to the
root (`valuePlace`).  The shape of a trie says at which of these places it has a content
(`hasContentAt`).  A program whose first value is at such a place proves an entry, whatever else it
does (`proofs_sound_in_place`): it is the places between the contents that `KeyValueProof` does not
refuse.
-/

namespace UniqysKit

open Library

namespace MerkleProof

/-! ## Where a part of the stack goes -/

theorem slice_zero (stack : Bytes) (start : Int) :
    slice stack 0 start = stack.take (sliceIndex stack.length start) := by
  simp [slice]

theorem slice_length (stack : Bytes) (start : Int) :
    slice stack start stack.length = stack.drop (sliceIndex stack.length start) := by
  simp [slice]

theorem sliceIndex_le (length : Nat) (index : Int) : sliceIndex length index ≤ length := by
  unfold sliceIndex
  split <;> omega

namespace Operation

/-- How large the stack is after an operation. -/
def grow (size : Nat) : Operation → Nat
  | load data => size + data.length
  | value data => size + data.length
  | hash consume => sliceIndex size (size - consume) + 32

theorem length_step (c : Crypto) (stack : Bytes) (op : Operation) :
    (op.step c stack).length = op.grow stack.length := by
  cases op with
  | load data => exact List.length_append
  | value data => exact List.length_append
  | hash consume =>
      simp only [step, grow, slice_zero, List.length_append, List.length_take, Hash.size]
      rw [Nat.min_eq_left (sliceIndex_le _ _)]

end Operation

/-- Where a part of the stack is: its size and how much is under it and over it, and the offsets at
which it was hashed before, the last one first. -/
structure Place where
  offsets : List Nat
  before : Nat
  size : Nat
  after : Nat
  deriving DecidableEq

/-- The place after an operation. A hash takes the place of the part when it is taken of all of it;
when it is taken of a piece, the part is lost. -/
def Place.step (place : Place) : Operation → Option Place
  | .load data => some { place with after := place.after + data.length }
  | .value data => some { place with after := place.after + data.length }
  | .hash consume =>
      let total := place.before + place.size + place.after
      let start := sliceIndex total (total - consume)
      if start ≤ place.before then
        some ⟨(place.before - start) :: place.offsets, start, 32, 0⟩
      else if place.before + place.size ≤ start then
        some { place with after := start - (place.before + place.size) + 32 }
      else none

/-- Where the first value is in the end, after operations that start from a stack of some size. -/
def valuePlace : List Operation → Nat → Option Place
  | [], _ => none
  | .value data :: operations, size => operations.foldlM Place.step ⟨[], size, data.length, 0⟩
  | op :: operations, size => valuePlace operations (op.grow size)

section Places

variable (c : Crypto)

/-- The byte strings that a program hashes. -/
def images : List Operation → Bytes → List Bytes
  | [], _ => []
  | .hash consume :: operations, stack =>
      slice stack (stack.length - consume) stack.length ::
        images operations (Operation.step c stack (.hash consume))
  | op :: operations, stack => images operations (op.step c stack)

/-- The data is hashed at the last offset, the hash at the offset before, and so on. -/
inductive Nested (hashed : List Bytes) (data : Bytes) : Bytes → List Nat → Prop where
  | data : Nested hashed data data []
  | image {before inner after : Bytes} {offsets : List Nat} :
      before ++ inner ++ after ∈ hashed → Nested hashed data inner offsets →
        Nested hashed data (Hash.fromData c (before ++ inner ++ after)).buffer
          (before.length :: offsets)

/-- The part of the stack at the place is the data or a hash over it. -/
def Place.At (hashed : List Bytes) (data : Bytes) (place : Place) (stack : Bytes) : Prop :=
  ∃ before outer after, stack = before ++ outer ++ after ∧ before.length = place.before ∧
    outer.length = place.size ∧ after.length = place.after ∧ Nested c hashed data outer place.offsets

variable {c} {hashed : List Bytes} {data stack : Bytes} {place place' : Place}

theorem Place.At.push (h : place.At c hashed data stack) (more : Bytes) :
    Place.At c hashed data { place with after := place.after + more.length } (stack ++ more) := by
  rcases h with ⟨before, outer, after, rfl, hbefore, hsize, hafter, hnested⟩
  refine ⟨before, outer, after ++ more, by simp, hbefore, hsize, ?_, hnested⟩
  rw [List.length_append, hafter]

/-- A hash over the whole part. -/
theorem Place.At.cover (h : place.At c hashed data stack) {start : Nat} (hstart : start ≤ place.before)
    (himage : stack.drop start ∈ hashed) :
    Place.At c hashed data ⟨(place.before - start) :: place.offsets, start, 32, 0⟩
      (stack.take start ++ (Hash.fromData c (stack.drop start)).buffer) := by
  rcases h with ⟨before, outer, after, rfl, hbefore, hsize, hafter, hnested⟩
  have hle : start ≤ before.length := hbefore ▸ hstart
  have hle' : start ≤ (before ++ outer).length := by
    rw [List.length_append]
    omega
  have himage' : (before ++ outer ++ after).drop start = before.drop start ++ outer ++ after := by
    rw [List.drop_append_of_le_length hle', List.drop_append_of_le_length hle]
  refine ⟨(before ++ outer ++ after).take start, _, [], (List.append_nil _).symm, ?_, Hash.size _, rfl,
    ?_⟩
  · rw [List.length_take, List.length_append]
    exact Nat.min_eq_left (by omega)
  · rw [himage'] at himage ⊢
    have hoffset : (before.drop start).length = place.before - start := by
      rw [List.length_drop, hbefore]
    rw [← hoffset]
    exact .image himage hnested

/-- A hash of what is over the part. -/
theorem Place.At.leave (h : place.At c hashed data stack) {start : Nat}
    (hstart : place.before + place.size ≤ start) (hlength : start ≤ stack.length) (hash : Hash) :
    Place.At c hashed data { place with after := start - (place.before + place.size) + 32 }
      (stack.take start ++ hash.buffer) := by
  rcases h with ⟨before, outer, after, rfl, hbefore, hsize, hafter, hnested⟩
  have hpart : (before ++ outer).length = place.before + place.size := by
    rw [List.length_append, hbefore, hsize]
  have htake : (before ++ outer ++ after).take start =
      before ++ outer ++ after.take (start - (place.before + place.size)) := by
    rw [List.take_append, hpart, List.take_of_length_le (hpart.trans_le hstart)]
  refine ⟨before, outer, after.take (start - (place.before + place.size)) ++ hash.buffer, ?_, hbefore,
    hsize, ?_, hnested⟩
  · rw [htake, List.append_assoc]
  · rw [List.length_append, hpart] at hlength
    rw [List.length_append, List.length_take, hash.size, Nat.min_eq_left (by omega)]

theorem Place.At.step (h : place.At c hashed data stack) {op : Operation}
    (himages : images c [op] stack ⊆ hashed) (hstep : place.step op = some place') :
    place'.At c hashed data (op.step c stack) := by
  cases op with
  | load more =>
      cases hstep
      exact h.push more
  | value more =>
      cases hstep
      exact h.push more
  | hash consume =>
      have htotal : place.before + place.size + place.after = stack.length := by
        rcases h with ⟨before, outer, after, rfl, hbefore, hsize, hafter, -⟩
        rw [List.length_append, List.length_append, hbefore, hsize, hafter]
      have himage : slice stack (stack.length - consume) stack.length ∈ hashed :=
        himages List.mem_cons_self
      simp only [Place.step, htotal] at hstep
      simp only [slice_length] at himage
      simp only [Operation.step, slice_zero, slice_length]
      split at hstep
      · rename_i hcover
        cases hstep
        exact h.cover hcover himage
      · split at hstep
        · rename_i hleave
          cases hstep
          exact h.leave hleave (sliceIndex_le _ _) _
        · cases hstep

theorem images_cons (op : Operation) (operations : List Operation) (stack : Bytes) :
    images c (op :: operations) stack =
      images c [op] stack ++ images c operations (op.step c stack) := by
  cases op <;> rfl

theorem Place.At.run {operations : List Operation} (h : place.At c hashed data stack)
    (himages : images c operations stack ⊆ hashed)
    (hplace : operations.foldlM Place.step place = some place') :
    place'.At c hashed data (run c operations stack) := by
  induction operations generalizing place stack with
  | nil =>
      cases hplace
      exact h
  | cons op operations ih =>
      rw [images_cons, List.append_subset] at himages
      rw [List.foldlM_cons, Option.bind_eq_bind, Option.bind_eq_some_iff] at hplace
      rcases hplace with ⟨next, hstep, hplace⟩
      exact ih (h.step himages.1 hstep) himages.2 hplace

/-- The place of the first value is where the run puts it. -/
theorem valuePlace_at {operations : List Operation} (himages : images c operations stack ⊆ hashed)
    (hplace : valuePlace operations stack.length = some place) :
    ∃ data others, operations.filterMap Operation.data? = data :: others ∧
      place.At c hashed data (run c operations stack) := by
  induction operations generalizing stack with
  | nil => cases hplace
  | cons op operations ih =>
      rw [images_cons, List.append_subset] at himages
      cases op with
      | value data =>
          rw [valuePlace] at hplace
          have hstart : Place.At c hashed data ⟨[], stack.length, data.length, 0⟩ (stack ++ data) :=
            ⟨stack, data, [], (List.append_nil _).symm, rfl, rfl, rfl, .data⟩
          have hrun : place.At c hashed data (run c operations (stack ++ data)) :=
            hstart.run himages.2 hplace
          exact ⟨data, _, rfl, hrun⟩
      | load data =>
          simp only [valuePlace, ← Operation.length_step c] at hplace
          exact ih himages.2 hplace
      | hash consume =>
          simp only [valuePlace, ← Operation.length_step c] at hplace
          exact ih himages.2 hplace

end Places

end MerkleProof

/-! ## Where a trie has contents -/

/-- The trie has a content at the place: its bytes come last in what the hash of a node covers, and
the hashes of the children come first, 32 bytes each. The first offset is that in the topmost node. -/
def TrieStore.hasContentAt (c : Crypto) (st : TrieStore) (size : Nat) : Hash → List Nat → Bool
  | _, [] => false
  | hash, [offset] =>
      match st.get hash with
      | .ok node => (node.content.map fun content => content.bytes.length) = some size &&
          offset = 32 * (node.preImage c).1.length
      | .error _ => false
  | hash, offset :: offsets =>
      match st.get hash with
      | .ok node =>
          match (node.preImage c).1[offset / 32]? with
          | some child => offset % 32 = 0 && hasContentAt c st size child offsets
          | none => false
      | .error _ => false

section Trie

open MerkleProof

variable {c : Crypto} {st : TrieStore}

theorem length_flatMap_serialize (hashes : List Hash) :
    (hashes.flatMap Hash.serialize).length = 32 * hashes.length := by
  induction hashes with
  | nil => rfl
  | cons hash hashes ih =>
      rw [List.flatMap_cons, List.length_append, ih, Hash.serialize, hash.size, List.length_cons]
      omega

/-- The bytes at the place of a hash are that hash. -/
theorem PreImage.eq_hash {before inner after : Bytes} {hashes : List Hash} {content : Option Content}
    (h : before ++ inner ++ after = PreImage.bytes (hashes, content)) (hinner : inner.length = 32)
    {index : Nat} (hbefore : before.length = 32 * index) {hash : Hash}
    (hhash : hashes[index]? = some hash) : inner = hash.buffer := by
  rcases List.getElem?_eq_some_iff.mp hhash with ⟨hlt, hget⟩
  have hsplit : hashes = hashes.take index ++ hash :: hashes.drop (index + 1) := by
    rw [← hget, List.cons_getElem_drop_succ, List.take_append_drop]
  have hbytes : PreImage.bytes (hashes, content) = (hashes.take index).flatMap Hash.serialize ++
      (hash.buffer ++ ((hashes.drop (index + 1)).flatMap Hash.serialize ++
        (content.map Content.bytes).getD [])) := by
    conv_lhs => rw [hsplit]
    simp [PreImage.bytes, Hash.serialize]
  rw [hbytes, List.append_assoc] at h
  have hlength : before.length = ((hashes.take index).flatMap Hash.serialize).length := by
    rw [length_flatMap_serialize, List.length_take, Nat.min_eq_left hlt.le, hbefore]
  exact (List.append_inj (List.append_inj h hlength).2 (hinner.trans hash.size.symm)).1

/-- The bytes at the place of the content are the content. -/
theorem PreImage.eq_content {before data after : Bytes} {hashes : List Hash} {content : Content}
    (h : before ++ data ++ after = PreImage.bytes (hashes, some content))
    (hdata : data.length = content.bytes.length) (hbefore : before.length = 32 * hashes.length) :
    data = content.bytes := by
  rw [PreImage.bytes, List.append_assoc] at h
  have hrest := (List.append_inj h (hbefore.trans (length_flatMap_serialize hashes).symm)).2
  have hcontent : data ++ after = content.bytes ++ [] := by
    rw [hrest, List.append_nil]
    rfl
  exact (List.append_inj hcontent hdata).1

theorem MerkleProof.Nested.length {hashed : List Bytes} {data outer : Bytes} {offset : Nat}
    {offsets : List Nat} (h : Nested c hashed data outer (offset :: offsets)) : outer.length = 32 := by
  cases h with
  | image _ _ => exact Hash.size _

theorem record_content (label : Key) (children : Fin 16 → TrieTree) (content : Option Content) :
    (record c label children content).content = content := rfl

/-- Nothing else is on the stack when the root hash is. -/
theorem MerkleProof.Nested.eq_root {hashed : List Bytes} {data before outer after : Bytes}
    {offsets : List Nat} {root : Hash} (h : Nested c hashed data outer offsets)
    (hroot : before ++ outer ++ after = root.buffer) (hne : offsets ≠ []) : outer = root.buffer := by
  rcases List.exists_cons_of_ne_nil hne with ⟨offset, rest, rfl⟩
  have hlength := congrArg List.length hroot
  rw [List.length_append, List.length_append, h.length, root.size] at hlength
  have hbefore : before = [] := List.length_eq_zero_iff.mp (by omega)
  have hafter : after = [] := List.length_eq_zero_iff.mp (by omega)
  rw [← hroot, hbefore, hafter, List.nil_append, List.append_nil]

/-- What is hashed at a place where a stored tree has a content is that content. -/
theorem Stored.content_of_nested {t : TrieTree} (h : Stored c st t) {hashed : List Bytes}
    (hc : CollisionFree c (hashed ++ st.saved.map fun node => (node.preImage c).bytes))
    {data outer : Bytes} {offsets : List Nat} (hnested : Nested c hashed data outer offsets)
    {hash : Hash} (houter : outer = hash.buffer) (hdigest : t.digest (combine c) = some hash)
    (hplace : st.hasContentAt c data.length hash offsets = true) :
    ∃ content ∈ t.contents, data = content.bytes := by
  induction hnested generalizing t hash with
  | data => cases hplace
  | @image before inner after offsets himage hinner ih =>
      cases t with
      | nil => cases hdigest
      | node label children content =>
          rcases h label children content (.refl (by simp)) with ⟨hget, hmem⟩
          have hhash : hash = (record c label children content).hash c := by
            rw [hash_record]
            exact (Option.some.inj hdigest).symm
          rw [← hhash] at hget
          -- no other string with this hash was hashed than what the node covers
          have hbytes : before ++ inner ++ after = (Patricia.childDigests (combine c) children,
              content).1.flatMap Hash.serialize ++ (content.map Content.bytes).getD [] := by
            have heq : Hash.fromData c (before ++ inner ++ after) = Hash.fromData c
                ((record c label children content).preImage c).bytes :=
              Hash.ext (houter.trans (congrArg Hash.buffer hhash))
            have hsame := hc _ (List.mem_append_left _ himage) _
              (List.mem_append_right _ (List.mem_map_of_mem hmem)) heq
            rw [hsame, preImage_record]
            rfl
          cases offsets with
          | nil =>
              cases hinner
              simp only [TrieStore.hasContentAt, hget, preImage_record, record_content,
                Bool.and_eq_true, decide_eq_true_eq, Option.map_eq_some_iff] at hplace
              rcases hplace with ⟨⟨entry, rfl, hsize⟩, hoffset⟩
              refine ⟨entry, Patricia.mem_contents_node.mpr (.inl rfl), ?_⟩
              exact PreImage.eq_content hbytes hsize.symm hoffset
          | cons offset offsets =>
              simp only [TrieStore.hasContentAt, hget, preImage_record] at hplace
              split at hplace
              · rename_i child hchild
                rw [Bool.and_eq_true, decide_eq_true_eq] at hplace
                rcases hplace with ⟨hoffset, hplace⟩
                have hinner' := PreImage.eq_hash hbytes hinner.length
                  (show before.length = 32 * (before.length / 32) by omega) hchild
                rcases List.mem_filterMap.mp (List.mem_of_getElem? hchild) with ⟨i, -, hi⟩
                rcases ih (h.child i) hinner' hi hplace with ⟨entry, hentry, hdata⟩
                exact ⟨entry, Patricia.mem_contents_node.mpr (.inr ⟨i, hentry⟩), hdata⟩
              · cases hplace

end Trie

/-! ## Proofs with their value in place -/

namespace MerklePatriciaTrie

/-- The first value of the program is where the trie has a content. -/
def valueInPlace (c : Crypto) (trie : MerklePatriciaTrie) (proof : MerkleProof) : Bool :=
  match proof.values, MerkleProof.valuePlace proof.operations 0 with
  | data :: _, some place => trie.store.hasContentAt c data.length trie.rootHash place.offsets
  | _, _ => false

/-- What the hashes are taken of when a program is run and when the nodes of the trie are saved. -/
def hashed (c : Crypto) (trie : MerklePatriciaTrie) (proof : MerkleProof) : List Bytes :=
  MerkleProof.images c proof.operations [] ++ trie.saved.map fun node => (node.preImage c).bytes

section InPlace

variable {c : Crypto} {trie : MerklePatriciaTrie} {t : TrieTree}

/-- A trie with a content has the root hash of its tree: the empty node has none. -/
theorem Sound.digest_of_hasContentAt (h : Sound c trie t) {size : Nat} {offsets : List Nat}
    (hplace : trie.store.hasContentAt c size trie.rootHash offsets = true) :
    t.digest (combine c) = some trie.rootHash := by
  have hroot := h.rootHash
  cases t with
  | nil =>
      have hnull : trie.rootHash = Node.null.hash c := hroot
      rw [hnull] at hplace
      rcases offsets with _ | ⟨offset, _ | ⟨offset', offsets⟩⟩
      · cases hplace
      · rw [TrieStore.hasContentAt, h.consistent.get_null] at hplace
        simp [Node.null] at hplace
      · simp [TrieStore.hasContentAt, h.consistent.get_null, preImage_null] at hplace
  | node label children content =>
      rw [hroot]
      rfl

theorem Sound.get_of_inPlace (h : Sound c trie t) {proof : MerkleProof} {kv : KeyValueProof}
    (hnew : KeyValueProof.new proof = .ok kv) (hc : CollisionFree c (hashed c trie proof))
    (hplace : valueInPlace c trie proof = true) (hverify : kv.verify c trie.rootHash = true) :
    get kv.key trie = .ok (some kv.value) trie := by
  rcases KeyValueProof.new_eq_ok hnew with ⟨data, others, content, rest, hvalues, hread, rfl⟩
  unfold valueInPlace at hplace
  split at hplace
  · rename_i data' others' place hvalues' hvaluePlace
    rw [hvalues] at hvalues'
    obtain ⟨rfl, rfl⟩ := List.cons.inj hvalues'
    obtain ⟨data', others', hvalues', before, outer, after, hrun, -, -, -, hnested⟩ :=
      @MerkleProof.valuePlace_at c (MerkleProof.images c proof.operations []) [] place
        proof.operations (List.Subset.refl _) hvaluePlace
    obtain ⟨rfl, rfl⟩ := List.cons.inj (hvalues.symm.trans hvalues')
    have hroot : before ++ outer ++ after = trie.rootHash.buffer :=
      hrun.symm.trans (of_decide_eq_true hverify)
    have houter : outer = trie.rootHash.buffer := by
      refine hnested.eq_root hroot ?_
      rintro hnil
      rw [hnil] at hplace
      cases hplace
    rcases h.stored.content_of_nested hc hnested houter (h.digest_of_hasContentAt hplace) hplace with
      ⟨entry, hentry, rfl⟩
    -- the constructor has read that entry
    have hsame := entry.deserialize_append []
    rw [List.append_nil, hread] at hsame
    obtain ⟨rfl, -⟩ := Prod.mk.inj (Except.ok.inj hsame)
    rw [h.get, h.located.lookup_eq_some.mpr ⟨hentry, rfl⟩]
    rfl
  · cases hplace

end InPlace

end MerklePatriciaTrie

/-! ## The proofs that a trie gives -/

namespace MerkleProof

section Carrying

def loads (hashes : List Hash) : List Operation := hashes.map fun hash => .load hash.buffer

theorem valuePlace_loads (hashes : List Hash) (operations : List Operation) (size : Nat) :
    valuePlace (loads hashes ++ operations) size =
      valuePlace operations (size + 32 * hashes.length) := by
  induction hashes generalizing size with
  | nil => rfl
  | cons hash hashes ih =>
      have hstep : valuePlace (loads (hash :: hashes) ++ operations) size =
          valuePlace (loads hashes ++ operations) (size + hash.buffer.length) := rfl
      rw [hstep, ih, hash.size, List.length_cons]
      congr 1
      omega

theorem foldlM_loads (hashes : List Hash) (place : Place) :
    (loads hashes).foldlM Place.step place =
      some { place with after := place.after + 32 * hashes.length } := by
  induction hashes generalizing place with
  | nil => rfl
  | cons hash hashes ih =>
      have hstep : (loads (hash :: hashes)).foldlM Place.step place = (loads hashes).foldlM Place.step
          { place with after := place.after + hash.buffer.length } := rfl
      rw [hstep, ih, hash.size, List.length_cons]
      simp only [Option.some.injEq, Place.mk.injEq, true_and]
      omega

theorem size_loads (hashes : List Hash) :
    ((loads hashes).map Operation.size).sum = (32 * hashes.length : Nat) := by
  induction hashes with
  | nil => rfl
  | cons hash hashes ih =>
      have hstep : ((loads (hash :: hashes)).map Operation.size).sum =
          hash.buffer.length + ((loads hashes).map Operation.size).sum := rfl
      rw [hstep, ih, hash.size, List.length_cons]
      omega

theorem data_loads (hashes : List Hash) : (loads hashes).filterMap Operation.data? = [] := by
  rw [loads, List.filterMap_map]
  exact List.filterMap_eq_nil_iff.mpr fun _ _ => rfl

theorem valuePlace_append {operations : List Operation} {size : Nat} {place : Place}
    (h : valuePlace operations size = some place) (more : List Operation) :
    valuePlace (operations ++ more) size = more.foldlM Place.step place := by
  induction operations generalizing size with
  | nil => cases h
  | cons op operations ih =>
      cases op with
      | value data =>
          simp only [valuePlace] at h
          simp only [List.cons_append, valuePlace, List.foldlM_append, h, Option.bind_eq_bind,
            Option.bind_some]
      | load data =>
          simp only [valuePlace] at h
          simp only [List.cons_append, valuePlace, ih h]
      | hash consume =>
          simp only [valuePlace] at h
          simp only [List.cons_append, valuePlace, ih h]

/-- A hash of all that was pushed since the stack had some size. -/
theorem Place.step_hash (offsets : List Nat) (under below size after : Nat) :
    Place.step ⟨offsets, under + below, size, after⟩ (.hash (below + size + after : Nat)) =
      some ⟨below :: offsets, under, 32, 0⟩ := by
  have hstart : sliceIndex (under + below + size + after)
      (((under + below + size + after : Nat) : Int) - ((below + size + after : Nat) : Int)) =
        under := by
    have hdiff : ((under + below + size + after : Nat) : Int) - ((below + size + after : Nat) : Int) =
        (under : Int) := by
      omega
    rw [hdiff, sliceIndex, if_neg (by omega), Int.toNat_natCast]
    omega
  simp only [Place.step, hstart, Nat.le_add_right, if_true, Nat.add_sub_cancel_left]

/-- What a program pushes is `below` bytes, the first value or a hash over it, and `after` bytes. -/
structure Carries (proof : MerkleProof) (data : Bytes) (offsets : List Nat) (below part after : Nat) :
    Prop where
  value : proof.values.head? = some data
  size : proof.resultSize = (below + part + after : Nat)
  place : ∀ size, valuePlace proof.operations size = some ⟨offsets, size + below, part, after⟩

variable {proof : MerkleProof} {data : Bytes} {offsets : List Nat} {below part after : Nat}

theorem Carries.ofLoads (hashes : List Hash) (data : Bytes) :
    Carries (MerkleProof.value ⟨loads hashes⟩ data) data [] (32 * hashes.length) data.length 0 := by
  refine ⟨?_, ?_, ?_⟩
  · rw [values, MerkleProof.value, List.filterMap_append, data_loads]
    rfl
  · rw [resultSize, MerkleProof.value, List.map_append, List.sum_append, size_loads]
    simp [Operation.size]
  · intro size
    rw [MerkleProof.value, valuePlace_loads]
    rfl

theorem Carries.load (h : Carries proof data offsets below part after) (more : Bytes) :
    Carries (proof.load more) data offsets below part (after + more.length) := by
  refine ⟨?_, ?_, ?_⟩
  · rw [values, MerkleProof.load, List.filterMap_append, List.head?_append, ← values, h.value]
    rfl
  · rw [resultSize, MerkleProof.load, List.map_append, List.sum_append, ← resultSize, h.size]
    simp only [List.map_cons, List.map_nil, List.sum_cons, List.sum_nil, Operation.size]
    omega
  · intro size
    rw [MerkleProof.load, valuePlace_append (h.place size)]
    rfl

/-- Hashes that come before and after the one over the value. -/
theorem Carries.among (h : Carries proof data offsets 0 32 0) (before after : List Hash) :
    Carries ⟨loads before ++ (proof.operations ++ loads after)⟩ data offsets (32 * before.length) 32
      (32 * after.length) := by
  refine ⟨?_, ?_, ?_⟩
  · rw [values, List.filterMap_append, List.filterMap_append, data_loads, data_loads, List.nil_append,
      List.append_nil]
    exact h.value
  · have hsum : (proof.operations.map Operation.size).sum = 32 := h.size
    simp only [resultSize, List.map_append, List.sum_append, size_loads, hsum]
    omega
  · intro size
    rw [valuePlace_loads, valuePlace_append (h.place _), foldlM_loads]
    simp

/-- `hash` is taken of all that the program pushes, and the value is where it was in that. -/
theorem Carries.hash (h : Carries proof data offsets below part after) :
    Carries proof.hash data (below :: offsets) 0 32 0 := by
  refine ⟨?_, ?_, ?_⟩
  · rw [values, MerkleProof.hash, List.filterMap_append, List.head?_append, ← values, h.value]
    rfl
  · rw [resultSize, MerkleProof.hash, List.map_append, List.sum_append, ← resultSize]
    simp [Operation.size]
  · intro size
    rw [MerkleProof.hash, valuePlace_append (h.place size), h.size, List.foldlM_cons, Place.step_hash]
    rfl

/-- `optimize` does not move the first value. -/
theorem valuePlace_optimize (proof : MerkleProof) (size : Nat) :
    valuePlace proof.optimize.operations size = valuePlace proof.operations size := by
  refine optimize_eq (fun operations => valuePlace operations size) ?_ proof
  intro operations data data' rest
  have hfold : ∀ (operations : List Operation) place,
      (operations ++ .load (data ++ data') :: rest).foldlM Place.step place =
        (operations ++ .load data :: .load data' :: rest).foldlM Place.step place := by
    intro operations place
    simp only [List.foldlM_append, List.foldlM_cons, Place.step, Option.bind_eq_bind,
      Option.bind_some, List.length_append, Nat.add_assoc]
  induction operations generalizing size with
  | nil => simp only [List.nil_append, valuePlace, Operation.grow, List.length_append, Nat.add_assoc]
  | cons op operations ih =>
      cases op with
      | value _ => simp only [List.cons_append, valuePlace, hfold]
      | load _ => exact ih _
      | hash _ => exact ih _

end Carrying

end MerkleProof

section Honest

open MerkleProof

variable {c : Crypto} {st : TrieStore}

/-- A node has a content where the child has it, after the hashes of the children before. -/
theorem TrieStore.hasContentAt_child {node : Node} {size : Nat} {hash child : Hash}
    {before after : List Hash} {offsets : List Nat} (hget : st.get hash = .ok node)
    (hhashes : (node.preImage c).1 = before ++ child :: after)
    (hchild : st.hasContentAt c size child offsets = true) :
    st.hasContentAt c size hash ((32 * before.length) :: offsets) = true := by
  cases offsets with
  | nil => cases hchild
  | cons offset offsets => simp [TrieStore.hasContentAt, hget, hhashes, hchild]

theorem flatMap_load {ι : Type} (l : List ι) (children : ι → Child) :
    l.flatMap (fun i => (children i).load c) =
      loads (l.filterMap fun i => (children i).hash c) := by
  rw [loads, List.filterMap_eq_flatMap_toList, List.map_flatMap]
  rfl

/-- The children of a node with one of them set apart. -/
theorem flatMap_children (node : Node) (letter : Fin 16) {hash : Hash}
    (hchild : (node.children letter).hash c = some hash) (below : List MerkleProof.Operation) :
    ∃ before after, (node.preImage c).1 = before ++ hash :: after ∧
      ((List.finRange 16).flatMap fun i => if i = letter then below else (node.children i).load c) =
        loads before ++ (below ++ loads after) := by
  rcases List.append_of_mem (List.mem_finRange letter) with ⟨first, last, hsplit⟩
  have hnodup := List.nodup_finRange 16
  rw [hsplit, List.nodup_append, List.nodup_cons] at hnodup
  have hfirst : letter ∉ first := fun hmem => hnodup.2.2 letter hmem letter List.mem_cons_self rfl
  have hother : ∀ l : List (Fin 16), letter ∉ l →
      (l.flatMap fun i => if i = letter then below else (node.children i).load c) =
        loads (l.filterMap fun i => (node.children i).hash c) := by
    intro l hl
    rw [← flatMap_load]
    refine List.flatMap_congr fun i hi => if_neg ?_
    rintro rfl
    exact hl hi
  refine ⟨first.filterMap fun i => (node.children i).hash c,
    last.filterMap fun i => (node.children i).hash c, ?_, ?_⟩
  · rw [Node.preImage, hsplit, List.filterMap_append, List.filterMap_cons, hchild]
  · rw [hsplit, List.flatMap_append, List.flatMap_cons, if_pos rfl, hother first hfirst,
      hother last hnodup.2.1.1]

/-- What is behind a stored child. -/
theorem Stored.dereference {t : TrieTree} (h : Stored c st t) {result : Result Node}
    (hresult : (refOf c t).dereference st = some result) : ∃ label children content,
      t = .node label children content ∧ result = .ok (record c label children content) := by
  cases t with
  | nil => cases hresult
  | node label children content =>
      have hget := (h label children content (.refl (by simp))).1
      rw [hash_record] at hget
      rw [refOf_node, Child.dereference, hget] at hresult
      exact ⟨label, children, content, rfl, (Option.some.inj hresult).symm⟩

/-- The program that `prove` writes for a stored node has its value where there is a content. -/
theorem Stored.prove_carries {label : Key} {children : Fin 16 → TrieTree} {content : Option Content}
    (h : Stored c st (.node label children content)) {key : Key} {proof : MerkleProof}
    (hprove : (record c label children content).prove c st key = .ok proof) :
    ∃ data offsets, Carries proof data offsets 0 32 0 ∧
      st.hasContentAt c data.length ((record c label children content).hash c) offsets = true := by
  have hget := (h label children content (.refl (by simp))).1
  generalize hnode : record c label children content = node at hprove hget ⊢
  fun_induction Node.prove c st node key generalizing label children content proof with
  | case1 =>
      rename_i node key _ entry hrest hcontent hremain first
      have hfirst : first = ⟨loads (node.preImage c).1⟩ := congrArg MerkleProof.mk (flatMap_load _ _)
      rw [Content.serialize_eq, hfirst] at hprove
      cases hprove
      refine ⟨entry.bytes, _, (Carries.ofLoads _ _).hash, ?_⟩
      simp [TrieStore.hasContentAt, hget, hcontent]
  | case2 => cases hprove
  | case3 =>
      rename_i node key _ letter rest hrest hremain result hresult ih
      subst hnode
      rcases (h.child letter).dereference hresult with ⟨label', children', content', hbelow, rfl⟩
      rcases Result.bind_eq_ok.mp hprove with ⟨node', hnode', hprove⟩
      cases hnode'
      rcases Result.bind_eq_ok.mp hprove with ⟨child, hchild, hprove⟩
      have hstored : Stored c st (.node label' children' content') := hbelow ▸ h.child letter
      have hget' := (hstored label' children' content' (.refl (by simp))).1
      rcases ih _ hstored rfl hchild hget' with ⟨data, offsets, hcarries, hcontentAt⟩
      have hhash : ((record c label children content).children letter).hash c =
          some ((record c label' children' content').hash c) := by
        rw [hash_record]
        simp only [record, hash_refOf, hbelow, Patricia.digest_node]
      rcases flatMap_children (record c label children content) letter hhash child.operations with
        ⟨before, after, hhashes, hoperations⟩
      have hplace := TrieStore.hasContentAt_child hget hhashes hcontentAt
      rw [hoperations] at hprove
      -- the content of the node itself is loaded behind the children
      cases content with
      | none =>
          cases hprove
          exact ⟨data, _, (hcarries.among before after).hash, hplace⟩
      | some entry =>
          rw [record_content] at hprove
          simp only [Content.serialize_eq] at hprove
          cases hprove
          exact ⟨data, _, ((hcarries.among before after).load entry.bytes).hash, hplace⟩
  | case4 => cases hprove
  | case5 => cases hprove

end Honest

namespace MerklePatriciaTrie

open MerkleProof

theorem Sound.prove_inPlace {c : Crypto} {trie : MerklePatriciaTrie} {t : TrieTree}
    (h : Sound c trie t) {key : Bytes} {kv : KeyValueProof}
    (hprove : prove c key trie = .ok kv trie) : valueInPlace c trie kv.proof = true := by
  cases t with
  | nil =>
      rcases h.prove_none (Patricia.lookup_nil (Key.bufferToKey key)) with ⟨e, herror⟩
      rw [hprove] at herror
      cases herror
  | node label children content =>
      have hhash : trie.rootHash = (record c label children content).hash c :=
        h.rootHash.trans (hash_record c label children content).symm
      have hroot := h.root_of_get (hhash ▸ (h.stored label children content (.inl rfl)).1)
      rw [prove, Fallible.bind_ok hroot] at hprove
      cases hnode : (record c label children content).prove c trie.store (Key.bufferToKey key) with
      | error e =>
          rw [Fallible.bind_error (reading_error hnode)] at hprove
          cases hprove
      | ok proof =>
          have hread := @reading_ok trie _
            (fun store => (record c label children content).prove c store (Key.bufferToKey key)) _ hnode
          rw [Fallible.bind_ok hread] at hprove
          cases hnew : KeyValueProof.new proof.optimize with
          | error e =>
              rw [hnew] at hprove
              cases hprove
          | ok kv' =>
              rw [hnew] at hprove
              cases hprove
              rcases KeyValueProof.new_eq_ok hnew with ⟨-, -, -, -, -, -, rfl⟩
              rcases h.stored.prove_carries hnode with ⟨data, offsets, hcarries, hplace⟩
              rcases List.head?_eq_some_iff.mp hcarries.value with ⟨others, hvalues⟩
              rw [valueInPlace, values_optimize, valuePlace_optimize, hvalues, hcarries.place 0, hhash]
              exact hplace

/-- The proofs that a trie gives have their value in place. -/
theorem prove_inPlace (c : Crypto) (ops : List Operation)
    (h : NoCollision c (Fallible.final (run c ops (new c))).saved) :
    ∃ trie, run c ops (new c) = .ok () trie ∧
      ∀ key kv, prove c key trie = .ok kv trie → valueInPlace c trie kv.proof = true := by
  rcases run_sound ops h with ⟨trie, t, hrun, hsound, -⟩
  exact ⟨trie, hrun, fun key kv hprove => hsound.prove_inPlace hprove⟩

/-- After every run from a fresh trie: a verifying proof whose first value is where the trie has a
content proves an entry. For every entry with a value there also is a verifying proof, with its value
elsewhere, that shows something else. -/
theorem proofs_sound_in_place (c : Crypto) (ops : List Operation)
    (h : NoCollision c (Fallible.final (run c ops (new c))).saved) :
    ∃ trie, run c ops (new c) = .ok () trie ∧
      (∀ proof kv, KeyValueProof.new proof = .ok kv → CollisionFree c (hashed c trie proof) →
        valueInPlace c trie proof = true → kv.verify c trie.rootHash = true →
          get kv.key trie = .ok (some kv.value) trie) ∧
      ∀ key value, get key trie = .ok (some value) trie → value ≠ [] →
        ∃ proof kv, KeyValueProof.new proof = .ok kv ∧ kv.verify c trie.rootHash = true ∧
          kv.key = key ∧ kv.value ≠ value := by
  rcases run_sound ops h with ⟨trie, t, hrun, hsound, -⟩
  refine ⟨trie, hrun, ?_, ?_⟩
  · intro proof kv hnew hc hplace hverify
    exact hsound.get_of_inPlace hnew hc hplace hverify
  · intro key value hget hne
    rcases hsound.verifies_dropLast hget hne with ⟨proof, kv, hnew, hverify, hkey, hvalue⟩
    refine ⟨proof, kv, hnew, hverify, hkey, ?_⟩
    intro hsame
    have hlength := congrArg List.length (hvalue.symm.trans hsame)
    rw [List.length_dropLast] at hlength
    have hpos := List.length_pos_iff.mpr hne
    omega

/-- The whole content as the value, in a trie that has nothing else. -/
def wholeProof : MerkleProof := ⟨[.value cat.bytes, .hash cat.bytes.length]⟩

theorem proofs_sound_in_place_whole :
    ∃ trie kv, run .transparent [.set cat] (new .transparent) = .ok () trie ∧
      KeyValueProof.new wholeProof = .ok kv ∧ get kv.key trie = .ok (some kv.value) trie := by
  have hc : NoCollision .transparent
      (Fallible.final (run .transparent [.set cat] (new .transparent))).saved := by decide +kernel
  rcases proofs_sound_in_place .transparent [.set cat] hc with ⟨trie, hrun, hsound, -⟩
  have htrie : Fallible.final (run .transparent [.set cat] (new .transparent)) = trie := by
    rw [hrun]
    rfl
  have hnew : KeyValueProof.new wholeProof = .ok ⟨wholeProof, cat.key, cat.value⟩ := by decide +kernel
  -- the hashes, the place of the value and the root are those of the run
  refine ⟨trie, _, hrun, hnew, hsound wholeProof _ hnew ?_ ?_ ?_⟩ <;>
    rw [← htrie] <;> decide +kernel

end MerklePatriciaTrie

end UniqysKit
