import UniqysKit.MerklePatriciaTrie.Node

/-!
# The byte format of stored nodes

`Node.serialize` and `Node.deserialize` once more, on what a store keeps: a node whose children are
hashes, with a content of any size that its length fields can express.  The nodes of the trie are
those with a content that the platform has buffers for, and on them the two readings agree.
-/

namespace UniqysKit

/-- A node whose children are all stored. -/
structure StoredNode where
  keyPrefix : Key
  children : Fin 16 → Option Hash
  /-- the key and the value -/
  content : Option (Bytes × Bytes)

namespace StoredNode

/-- `Content.serialize`. -/
def serializeContent : Serializer (Bytes × Bytes) := fun (key, value) => do
  let keyLength ← UInt32.serialize key.length
  let valueLength ← UInt32.serialize value.length
  return keyLength ++ key ++ (valueLength ++ value)

/-- `Content.deserialize`. -/
def deserializeContent : Deserializer (Bytes × Bytes) := fun reader => do
  let (keyLength, rest) ← UInt32.deserialize reader
  let (key, rest) := consume keyLength rest
  let (valueLength, rest) ← UInt32.deserialize rest
  let (value, rest) := consume valueLength rest
  return ((key, value), rest)

def serialize : Serializer StoredNode := fun node => do
  -- the length tells a padded key from one that is even
  let evenKey := Node.evenKey node.keyPrefix
  let keyLength ← UInt32.serialize node.keyPrefix.length
  let children ← ((List.finRange 16).map node.children).mapM (Optional.serialize Child.hashSerializer)
  let content ← Optional.serialize serializeContent node.content
  return keyLength ++ Key.keyToBuffer evenKey ++ children.flatten ++ content

def deserialize : Deserializer StoredNode := fun reader => do
  let (keyLength, rest) ← UInt32.deserialize reader
  let isEven := keyLength % 2 = 0
  let keyBufSize := (if isEven then keyLength else keyLength + 1) / 2
  let (keyBuf, rest) := consume keyBufSize rest
  let evenKey := Key.bufferToKey keyBuf
  let key := if isEven then evenKey else evenKey.drop 1
  let (children, rest) ← List.read (Optional.deserialize Hash.deserialize) 16 rest
  let (content, rest) ← Optional.deserialize deserializeContent rest
  return (⟨key, fun i => (children[i]?).getD none, content⟩, rest)

/-- A content of the trie, if the platform has buffers for it. -/
def toContent : Bytes × Bytes → Result Content := fun (key, value) =>
  if h : key.length < 2 ^ 31 ∧ value.length < 2 ^ 31 then
    .ok ⟨key, value, Content.key_lt_of_checked h, Content.value_lt_of_checked h⟩
  else .error .outOfRange

/-- The node of the trie. -/
def toNode (node : StoredNode) : Result Node := do
  let content ← node.content.mapM toContent
  return ⟨node.keyPrefix, fun i => Child.ofOptionalHash (node.children i), content⟩

/-! ## Reading back -/

theorem deserializeContent_append {content : Bytes × Bytes} {bytes : Bytes}
    (h : serializeContent content = .ok bytes) (rest : Bytes) :
    deserializeContent (bytes ++ rest) = .ok (content, rest) := by
  rcases content with ⟨key, value⟩
  rcases Result.bind_eq_ok.mp h with ⟨keyLength, hkey, h⟩
  rcases Result.bind_eq_ok.mp h with ⟨valueLength, hvalue, h⟩
  cases h
  simp only [deserializeContent, List.append_assoc, UInt32.deserialize_append hkey,
    UInt32.deserialize_append hvalue, Result.ok_bind, consume_append, Result.pure_eq]

theorem deserialize_append {node : StoredNode} {bytes : Bytes} (h : node.serialize = .ok bytes)
    (rest : Bytes) : deserialize (bytes ++ rest) = .ok (node, rest) := by
  rcases Result.bind_eq_ok.mp h with ⟨length, hlength, h⟩
  rcases Result.bind_eq_ok.mp h with ⟨children, hchildren, h⟩
  rcases Result.bind_eq_ok.mp h with ⟨content, hcontent, h⟩
  cases h
  have hhash : ∀ v inner rest, Child.hashSerializer v = .ok inner →
      Hash.deserialize (inner ++ rest) = .ok (v, rest) := by
    intro v inner rest hv
    cases hv
    exact Hash.deserialize_append v rest
  have hread := List.read_append
    (fun child _ bytes rest hchild => Optional.deserialize_append hhash hchild rest)
    hchildren (content ++ rest)
  rw [List.length_map, List.length_finRange] at hread
  have hcontentRead := Optional.deserialize_append
    (fun v inner rest hv => deserializeContent_append hv rest) hcontent rest
  obtain ⟨hconsume, hkey⟩ := Node.key_append node.keyPrefix (children.flatten ++ (content ++ rest))
  have hchild : (fun i : Fin 16 => (((List.finRange 16).map node.children)[i]?).getD none) =
      node.children := by
    funext i
    simp
  simp only [deserialize, Node.evenKey, List.append_assoc, UInt32.deserialize_append hlength,
    Result.ok_bind, hconsume, hkey, hread, hcontentRead, hchild, Result.pure_eq]

/-- What fits into the length fields can be written. -/
theorem exists_serialize {node : StoredNode} (hlength : node.keyPrefix.length < 2 ^ 32)
    (hcontent : ∀ content ∈ node.content, content.1.length < 2 ^ 32 ∧ content.2.length < 2 ^ 32) :
    ∃ bytes, node.serialize = .ok bytes := by
  obtain ⟨children, hchildren⟩ : ∃ children, ((List.finRange 16).map node.children).mapM
      (Optional.serialize Child.hashSerializer) = .ok children := by
    refine Result.mapM_ok ?_
    intro child _
    cases child with
    | none => exact ⟨_, rfl⟩
    | some hash => exact ⟨_, rfl⟩
  obtain ⟨content, hwritten⟩ : ∃ content,
      Optional.serialize serializeContent node.content = .ok content := by
    cases hnode : node.content with
    | none => exact ⟨_, rfl⟩
    | some content =>
        rcases hcontent content hnode with ⟨hkey, hvalue⟩
        simp only [Optional.serialize, serializeContent, UInt32.serialize_of_lt hkey,
          UInt32.serialize_of_lt hvalue, Result.ok_bind, Result.pure_eq]
        exact ⟨_, rfl⟩
  simp only [serialize, UInt32.serialize_of_lt hlength, hchildren, hwritten, Result.ok_bind,
    Result.pure_eq]
  exact ⟨_, rfl⟩

/-- A stored node reads back as it was, and what follows it is left. No array has a length that does
not fit into 32 bits. -/
theorem reads_back (node : StoredNode) (hlength : node.keyPrefix.length < 2 ^ 32)
    (hcontent : ∀ content ∈ node.content, content.1.length < 2 ^ 32 ∧ content.2.length < 2 ^ 32) :
    ∃ bytes, node.serialize = .ok bytes ∧ deserialize bytes = .ok (node, []) := by
  rcases exists_serialize hlength hcontent with ⟨bytes, hbytes⟩
  refine ⟨bytes, hbytes, ?_⟩
  have hread := deserialize_append hbytes []
  rwa [List.append_nil] at hread

/-- Three half bytes, two children and a content without a value. -/
def sample : StoredNode where
  keyPrefix := (Key.bufferToKey [6, 63]).drop 1
  children := fun i => if i.val = 0 ∨ i.val = 9 then some Hash.zero else none
  content := some ([99, 111], [])

theorem reads_back_sample :
    ∃ bytes, sample.serialize = .ok bytes ∧ deserialize bytes = .ok (sample, []) :=
  reads_back sample (by decide) (by decide)

end StoredNode

/-! ## The nodes of the trie -/

namespace Node

/-- A node of the trie is written as what is stored of it. -/
theorem serialize_stored (keyPrefix : Key) (children : Fin 16 → Option Hash)
    (content : Option Content) :
    serialize ⟨keyPrefix, fun i => Child.ofOptionalHash (children i), content⟩ =
      StoredNode.serialize
        ⟨keyPrefix, children, content.map fun content => (content.key, content.value)⟩ := by
  -- a child is written by its hash, in memory or not
  have hchild : ∀ hash, Child.serialize (Child.ofOptionalHash hash) =
      Optional.serialize Child.hashSerializer hash := by
    intro hash
    cases hash with
    | none => rfl
    | some hash => rfl
  have hchildren : ∀ hashes : List (Option Hash),
      (hashes.map Child.ofOptionalHash).mapM Child.serialize =
        hashes.mapM (Optional.serialize Child.hashSerializer) := by
    intro hashes
    induction hashes with
    | nil => rfl
    | cons hash hashes ih => rw [List.map_cons, List.mapM_cons, List.mapM_cons, ih, hchild]
  have hcontent : Optional.serialize Content.serialize content =
      Optional.serialize StoredNode.serializeContent
        (content.map fun content => (content.key, content.value)) := by
    cases content with
    | none => rfl
    | some content => rfl
  have hmap := hchildren ((List.finRange 16).map children)
  rw [List.map_map] at hmap
  simp only [serialize, StoredNode.serialize, hcontent]
  rw [← hmap]
  rfl

theorem deserializeChildren_eq (count : Nat) (reader : Bytes) :
    deserializeChildren count reader = (do
      let (children, rest) ← List.read (Optional.deserialize Hash.deserialize) count reader
      return (children.map Child.ofOptionalHash, rest)) := by
  induction count generalizing reader with
  | zero => rfl
  | succ count ih =>
      simp only [deserializeChildren, List.read, Child.deserialize]
      cases Optional.deserialize Hash.deserialize reader with
      | error e => rfl
      | ok first =>
          simp only [Result.ok_bind, Result.pure_eq, ih]
          cases List.read (Optional.deserialize Hash.deserialize) count first.2 with
          | error e => rfl
          | ok others => rfl

theorem deserialize_content (reader : Bytes) :
    Optional.deserialize Content.deserialize reader = (do
      let (content, rest) ← Optional.deserialize StoredNode.deserializeContent reader
      return (← content.mapM StoredNode.toContent, rest)) := by
  have hsome : ∀ reader, Content.deserialize reader = (do
      let (content, rest) ← StoredNode.deserializeContent reader
      return (← StoredNode.toContent content, rest)) := by
    intro reader
    simp only [Content.deserialize, StoredNode.deserializeContent, StoredNode.toContent]
    cases UInt32.deserialize reader with
    | error e => rfl
    | ok first =>
        simp only [Result.ok_bind]
        cases UInt32.deserialize (consume first.1 first.2).2 with
        | error e => rfl
        | ok second =>
            simp only [Result.ok_bind, Result.pure_eq]
            -- a content of the trie is also checked against the buffers of the platform
            by_cases h : (consume first.1 first.2).1.length < 2 ^ 31 ∧
                (consume second.1 second.2).1.length < 2 ^ 31
            · rw [dif_pos h, dif_pos h]
              rfl
            · rw [dif_neg h, dif_neg h]
              rfl
  simp only [Optional.deserialize]
  cases UInt8.deserialize reader with
  | error e => rfl
  | ok first =>
      rcases first with ⟨label, rest⟩
      rcases label with _ | _ | label
      · rfl
      · simp only [Result.ok_bind, hsome]
        cases StoredNode.deserializeContent rest with
        | error e => rfl
        | ok second =>
            simp only [Result.ok_bind, Result.pure_eq, Option.mapM_some]
            cases StoredNode.toContent second.1 with
            | error e => rfl
            | ok content => rfl
      · rfl

/-- A node of the trie is read as what is stored of it. -/
theorem deserialize_stored (reader : Bytes) :
    deserialize reader = (do
      let (stored, rest) ← StoredNode.deserialize reader
      return (← stored.toNode, rest)) := by
  -- the children are read as a list, and a place past its end has no child
  have hget : ∀ (hashes : List (Option Hash)) (i : Fin 16),
      ((hashes.map Child.ofOptionalHash)[i]?).getD .none =
        Child.ofOptionalHash ((hashes[i]?).getD none) := by
    intro hashes i
    simp only [Fin.getElem?_fin, List.getElem?_map]
    cases hashes[i.val]? with
    | none => rfl
    | some hash => rfl
  simp only [deserialize, StoredNode.deserialize, deserializeChildren_eq, deserialize_content,
    StoredNode.toNode]
  cases UInt32.deserialize reader with
  | error e => rfl
  | ok first =>
      rcases first with ⟨keyLength, rest⟩
      simp only [Result.ok_bind, consume]
      cases List.read (Optional.deserialize Hash.deserialize) 16 _ with
      | error e => rfl
      | ok second =>
          simp only [Result.ok_bind, Result.pure_eq, hget]
          cases Optional.deserialize StoredNode.deserializeContent second.2 with
          | error e => rfl
          | ok third =>
              simp only [Result.ok_bind]
              cases third.1.mapM StoredNode.toContent with
              | error e => rfl
              | ok content => rfl

end Node

end UniqysKit
