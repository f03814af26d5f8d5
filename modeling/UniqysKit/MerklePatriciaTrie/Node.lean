import Mathlib.Data.List.FinRange
import UniqysKit.Signature

/-!
# Trie nodes

Keys, contents and nodes of `merkle-patricia-trie/node.ts`, with their hash and their byte format.

A key is a list of half bytes.  A child is an `Optional<NodeRef>`: nothing, the hash of a stored
node, or a node in memory.  The hash of a node covers the hashes of its children in order and its
content; the skipped half bytes and the positions of the children are not part of it.
-/

namespace UniqysKit

/-! ## Keys -/

abbrev Key := List (Fin 16)

namespace Key

def keyToBuffer : Key → Bytes
  | [] => []
  | [_] => [0]
  | high :: low :: rest => UInt8.ofNat (high.val * 16 + low.val) :: keyToBuffer rest

def bufferToKey : Bytes → Key
  | [] => []
  | byte :: rest =>
      ⟨(byte.toNat - byte.toNat % 16) / 16, by have := byte.toNat_lt; omega⟩ ::
        ⟨byte.toNat % 16, Nat.mod_lt _ (by decide)⟩ :: bufferToKey rest

/-- The part two keys share from their start, and what remains of each. -/
structure Match where
  keyPrefix : Key
  remain1 : Key
  remain2 : Key

/-- The first position at which the keys differ; `findIdx` is the length where `findIndex` gives
-1. -/
def diffIndex (key1 key2 : Key) : Nat :=
  key1.zipIdx.findIdx fun (v, i) => key2[i]? ≠ some v

def «match» (key1 key2 : Key) : Match where
  keyPrefix := key1.take (diffIndex key1 key2)
  remain1 := key1.drop (diffIndex key1 key2)
  remain2 := key2.drop (diffIndex key1 key2)

@[simp] theorem diffIndex_nil_left (key : Key) : diffIndex [] key = 0 := rfl

@[simp] theorem diffIndex_nil_right (key : Key) : diffIndex key [] = 0 := by
  cases key with
  | nil => rfl
  | cons a key => simp [diffIndex, List.findIdx_cons]

theorem diffIndex_cons_ne {a b : Fin 16} (h : a ≠ b) (key1 key2 : Key) :
    diffIndex (a :: key1) (b :: key2) = 0 := by
  simp [diffIndex, List.findIdx_cons, Ne.symm h]

theorem diffIndex_cons_self (a : Fin 16) (key1 key2 : Key) :
    diffIndex (a :: key1) (a :: key2) = diffIndex key1 key2 + 1 := by
  simp only [diffIndex, List.zipIdx_cons', List.findIdx_cons, List.findIdx_map]
  simp [Function.comp_def]

theorem length_remain2_le (key1 key2 : Key) : («match» key1 key2).remain2.length ≤ key2.length := by
  simp [«match»]

@[simp] theorem match_nil_left (key : Key) : «match» [] key = ⟨[], [], key⟩ := by
  simp [«match»]

@[simp] theorem match_nil_right (key : Key) : «match» key [] = ⟨[], key, []⟩ := by
  simp [«match»]

theorem match_cons_ne {a b : Fin 16} (h : a ≠ b) (key1 key2 : Key) :
    «match» (a :: key1) (b :: key2) = ⟨[], a :: key1, b :: key2⟩ := by
  simp [«match», diffIndex_cons_ne h]

theorem match_cons_self (a : Fin 16) (key1 key2 : Key) :
    «match» (a :: key1) (a :: key2) =
      ⟨a :: («match» key1 key2).keyPrefix, («match» key1 key2).remain1,
        («match» key1 key2).remain2⟩ := by
  simp [«match», diffIndex_cons_self]

/-- What `match` returns: the two keys taken apart where they first differ. -/
theorem match_spec (key1 key2 : Key) :
    key1 = («match» key1 key2).keyPrefix ++ («match» key1 key2).remain1 ∧
      key2 = («match» key1 key2).keyPrefix ++ («match» key1 key2).remain2 ∧
      ∀ a b rest1 rest2, («match» key1 key2).remain1 = a :: rest1 →
        («match» key1 key2).remain2 = b :: rest2 → a ≠ b := by
  induction key1 generalizing key2 with
  | nil => simp
  | cons x key1 ih =>
      cases key2 with
      | nil => simp
      | cons y key2 =>
          by_cases hxy : x = y
          · subst hxy
            rcases ih key2 with ⟨h1, h2, hne⟩
            rw [match_cons_self]
            exact ⟨congrArg (x :: ·) h1, congrArg (x :: ·) h2, hne⟩
          · rw [match_cons_ne hxy]
            refine ⟨rfl, rfl, ?_⟩
            intro a b rest1 rest2 ha hb
            rw [← (List.cons.inj ha).1, ← (List.cons.inj hb).1]
            exact hxy

@[simp] theorem match_append (key rest : Key) : «match» key (key ++ rest) = ⟨key, [], rest⟩ := by
  induction key with
  | nil => simp
  | cons a key ih => simp [match_cons_self, ih]

/-- A key matches the whole of what it shares with another one. -/
theorem remain1_match_keyPrefix (key1 key2 : Key) :
    («match» («match» key1 key2).keyPrefix key2).remain1 = [] := by
  rcases match_spec key1 key2 with ⟨-, hkey2, -⟩
  generalize («match» key1 key2).keyPrefix = shared at hkey2 ⊢
  rw [hkey2, match_append]

theorem length_remain2_lt {key1 key2 rest : Key} {letter : Fin 16}
    (h : («match» key1 key2).remain2 = letter :: rest) : rest.length < key2.length := by
  have := length_remain2_le key1 key2
  rw [h, List.length_cons] at this
  exact this

@[simp] theorem keyToBuffer_bufferToKey (buf : Bytes) : keyToBuffer (bufferToKey buf) = buf := by
  induction buf with
  | nil => rfl
  | cons byte rest ih =>
      have hbyte : (byte.toNat - byte.toNat % 16) / 16 * 16 + byte.toNat % 16 = byte.toNat := by
        omega
      simp [bufferToKey, keyToBuffer, ih, hbyte]

theorem bufferToKey_keyToBuffer {key : Key} (h : key.length % 2 = 0) :
    bufferToKey (keyToBuffer key) = key := by
  induction key using keyToBuffer.induct with
  | case1 => rfl
  | case2 a => simp at h
  | case3 high low rest ih =>
      have hlt : high.val * 16 + low.val < 256 := by omega
      have hrest : rest.length % 2 = 0 := by
        simp only [List.length_cons] at h
        omega
      simp only [keyToBuffer, bufferToKey, ih hrest, UInt8.toNat_ofNat', Nat.mod_eq_of_lt hlt,
        List.cons.injEq, and_true]
      refine ⟨Fin.ext ?_, Fin.ext ?_⟩
      · show (high.val * 16 + low.val - (high.val * 16 + low.val) % 16) / 16 = high.val
        omega
      · show (high.val * 16 + low.val) % 16 = low.val
        omega

theorem bufferToKey_injective : Function.Injective bufferToKey := by
  intro buf buf' h
  rw [← keyToBuffer_bufferToKey buf, h, keyToBuffer_bufferToKey]

@[simp] theorem length_bufferToKey (buf : Bytes) : (bufferToKey buf).length = 2 * buf.length := by
  induction buf with
  | nil => rfl
  | cons byte rest ih =>
      simp only [bufferToKey, List.length_cons, ih]
      omega

theorem bufferToKey_append (buf rest : Bytes) :
    bufferToKey (buf ++ rest) = bufferToKey buf ++ bufferToKey rest := by
  induction buf with
  | nil => rfl
  | cons byte buf ih => simp [bufferToKey, ih]

/-- Half bytes keep the order of starts of byte strings. -/
theorem bufferToKey_prefix {buf buf' : Bytes} :
    bufferToKey buf <+: bufferToKey buf' ↔ buf <+: buf' := by
  constructor
  · intro h
    induction buf generalizing buf' with
    | nil => exact List.nil_prefix
    | cons byte rest ih =>
        cases buf' with
        | nil => simp [bufferToKey] at h
        | cons byte' rest' =>
            simp only [bufferToKey, List.cons_prefix_cons, Fin.mk.injEq] at h
            rcases h with ⟨hhigh, hlow, hrest⟩
            have hbyte : byte = byte' := UInt8.toNat_inj.mp (by omega)
            exact List.cons_prefix_cons.mpr ⟨hbyte, ih hrest⟩
  · rintro ⟨rest, rfl⟩
    exact ⟨bufferToKey rest, (bufferToKey_append buf rest).symm⟩

end Key

/-! ## Contents -/

/-- A key with its value. No buffer is longer than the platform allows. -/
structure Content where
  key : Bytes
  value : Bytes
  key_lt : key.length < 2 ^ 31
  value_lt : value.length < 2 ^ 31
  deriving DecidableEq

namespace Content

@[ext] theorem ext {content content' : Content} (hkey : content.key = content'.key)
    (hvalue : content.value = content'.value) : content = content' := by
  cases content
  cases content'
  simp_all

theorem key_lt_of_checked {key value : Bytes}
    (h : key.length < 2 ^ 31 ∧ value.length < 2 ^ 31) : key.length < 2 ^ 31 := h.1

theorem value_lt_of_checked {key value : Bytes}
    (h : key.length < 2 ^ 31 ∧ value.length < 2 ^ 31) : value.length < 2 ^ 31 := h.2

def serialize : Serializer Content := fun content => do
  let keyLength ← UInt32.serialize content.key.length
  let valueLength ← UInt32.serialize content.value.length
  return keyLength ++ content.key ++ (valueLength ++ content.value)

def deserialize : Deserializer Content := fun reader => do
  let (keyLength, rest) ← UInt32.deserialize reader
  let (key, rest) := consume keyLength rest
  let (valueLength, rest) ← UInt32.deserialize rest
  let (value, rest) := consume valueLength rest
  if h : key.length < 2 ^ 31 ∧ value.length < 2 ^ 31 then
    return (⟨key, value, key_lt_of_checked h, value_lt_of_checked h⟩, rest)
  else throw .outOfRange

open Library.BigEndian in
/-- The bytes of a content: both lengths fit in 32 bits, so nothing is thrown. -/
def bytes (content : Content) : Bytes :=
  toBytes 4 content.key.length ++ content.key ++
    (toBytes 4 content.value.length ++ content.value)

theorem serialize_eq (content : Content) : serialize content = .ok content.bytes := by
  have hkey := content.key_lt
  have hvalue := content.value_lt
  simp only [serialize, UInt32.serialize_of_lt (show content.key.length < 2 ^ 32 by omega),
    UInt32.serialize_of_lt (show content.value.length < 2 ^ 32 by omega), Result.ok_bind,
    Result.pure_eq, bytes]

theorem deserialize_append (content : Content) (rest : Bytes) :
    deserialize (content.bytes ++ rest) = .ok (content, rest) := by
  have hkey := content.key_lt
  have hvalue := content.value_lt
  simp only [deserialize, bytes, List.append_assoc,
    UInt32.deserialize_append (UInt32.serialize_of_lt (show content.key.length < 2 ^ 32 by omega)),
    UInt32.deserialize_append
      (UInt32.serialize_of_lt (show content.value.length < 2 ^ 32 by omega)),
    Result.ok_bind, consume_append, hkey, hvalue, and_self, dite_true, Result.pure_eq]

end Content

/-! ## Nodes -/

/-- An entry of a node's children: `Optional<NodeRef>`. -/
inductive Child where
  | none
  | ofHash (hash : Hash)
  | ofNode (keyPrefix : Key) (children : Fin 16 → Child) (content : Option Content)

structure Node where
  keyPrefix : Key
  children : Fin 16 → Child
  content : Option Content

@[ext] theorem Node.ext {node node' : Node} (hlabel : node.keyPrefix = node'.keyPrefix)
    (hchildren : node.children = node'.children) (hcontent : node.content = node'.content) :
    node = node' := by
  cases node
  cases node'
  simp_all

/-- What the hash of a node covers: the hashes of the children that exist, in order, and the
content. -/
abbrev PreImage := List Hash × Option Content

namespace PreImage

def bytes : PreImage → Bytes
  | (hashes, content) => hashes.flatMap Hash.serialize ++ (content.map Content.bytes).getD []

def hash (c : Crypto) (image : PreImage) : Hash := Hash.fromData c image.bytes

end PreImage

namespace Child

def ofOptionalHash : Option Hash → Child
  | .none => none
  | some hash => ofHash hash

def ofOptionalNode : Option Node → Child
  | .none => none
  | some node => ofNode node.keyPrefix node.children node.content

/-- The hash a child contributes to its parent. -/
def hash (c : Crypto) : Child → Option Hash
  | none => .none
  | ofHash hash => some hash
  | ofNode _ children content =>
      some (PreImage.hash c ((List.finRange 16).filterMap fun i => (children i).hash c, content))

def hashSerializer : Serializer Hash := fun hash => .ok hash.serialize

def serialize : Serializer Child
  | none => Optional.serialize hashSerializer .none
  | ofHash hash => Optional.serialize hashSerializer (some hash)
  | ofNode _ _ _ => .error ⟨"need store children before serialize"⟩

def deserialize : Deserializer Child := fun reader => do
  let (hash, rest) ← Optional.deserialize Hash.deserialize reader
  return (ofOptionalHash hash, rest)

theorem deserialize_append {child : Child} {bytes : Bytes} (h : serialize child = .ok bytes)
    (rest : Bytes) : deserialize (bytes ++ rest) = .ok (child, rest) := by
  have hread : ∀ hash : Option Hash,
      Optional.serialize hashSerializer hash = .ok bytes →
        deserialize (bytes ++ rest) = .ok (ofOptionalHash hash, rest) := by
    intro hash hbytes
    have hinner : ∀ v inner rest, hashSerializer v = .ok inner →
        Hash.deserialize (inner ++ rest) = .ok (v, rest) := by
      intro v inner rest hv
      cases hv
      exact Hash.deserialize_append v rest
    simp [deserialize, Optional.deserialize_append hinner hbytes rest]
  cases child with
  | none => exact hread .none h
  | ofHash hash => exact hread (some hash) h
  | ofNode keyPrefix children content => cases h

end Child

namespace Node

def emptyBranch : Fin 16 → Child := fun _ => .none

/-- `Node.null`, the root of an empty trie. -/
def null : Node := ⟨[], emptyBranch, none⟩

def preImage (c : Crypto) (node : Node) : PreImage :=
  ((List.finRange 16).filterMap fun i => (node.children i).hash c, node.content)

def hash (c : Crypto) (node : Node) : Hash := (node.preImage c).hash c

def serialize : Serializer Node := fun node => do
  let evenKey := if node.keyPrefix.length % 2 = 0 then node.keyPrefix else 0 :: node.keyPrefix
  let keyLength ← UInt32.serialize node.keyPrefix.length
  let children ← ((List.finRange 16).map node.children).mapM Child.serialize
  let content ← Optional.serialize Content.serialize node.content
  return keyLength ++ Key.keyToBuffer evenKey ++ children.flatten ++ content

/-- `evenKey` of `Node.serialize`: the half bytes, padded to an even number of them. -/
def evenKey (key : Key) : Key := if key.length % 2 = 0 then key else 0 :: key

/-- The loop of `Node.deserialize` over the children. -/
def deserializeChildren : Nat → Deserializer (List Child)
  | 0 => fun reader => .ok ([], reader)
  | count + 1 => fun reader => do
      let (child, rest) ← Child.deserialize reader
      let (children, rest) ← deserializeChildren count rest
      return (child :: children, rest)

def deserialize : Deserializer Node := fun reader => do
  let (keyLength, rest) ← UInt32.deserialize reader
  let isEven := keyLength % 2 = 0
  let keyBufSize := (if isEven then keyLength else keyLength + 1) / 2
  let (keyBuf, rest) := consume keyBufSize rest
  let evenKey := Key.bufferToKey keyBuf
  let key := if isEven then evenKey else evenKey.drop 1
  let (children, rest) ← deserializeChildren 16 rest
  let (content, rest) ← Optional.deserialize Content.deserialize rest
  return (⟨key, fun i => (children[i]?).getD .none, content⟩, rest)

/-- The children of a node that was read are references. -/
theorem deserializeChildren_isRef {count : Nat} {reader rest : Bytes} {children : List Child}
    (h : deserializeChildren count reader = .ok (children, rest)) :
    ∀ child ∈ children, ∃ hash, child = Child.ofOptionalHash hash := by
  induction count generalizing reader children rest with
  | zero =>
      cases h
      simp
  | succ count ih =>
      simp only [deserializeChildren, Child.deserialize, Result.bind_eq_ok] at h
      rcases h with ⟨⟨child, rest₁⟩, ⟨⟨hash, rest₀⟩, -, hchild⟩, ⟨⟨others, rest₂⟩, hothers, hres⟩⟩
      cases hchild
      cases hres
      intro child hmem
      rcases List.mem_cons.mp hmem with rfl | hmem
      · exact ⟨hash, rfl⟩
      · exact ih hothers child hmem

theorem deserialize_isRef {reader rest : Bytes} {node : Node}
    (h : deserialize reader = .ok (node, rest)) (i : Fin 16) :
    ∃ hash, node.children i = Child.ofOptionalHash hash := by
  simp only [deserialize, Result.bind_eq_ok] at h
  rcases h with ⟨⟨keyLength, rest₀⟩, -, ⟨children, rest₁⟩, hchildren, ⟨content, rest₂⟩, -, hres⟩
  cases hres
  cases hchild : children[i]? with
  | none => exact ⟨none, by simp [hchild, Child.ofOptionalHash]⟩
  | some child =>
      obtain ⟨hash, rfl⟩ := deserializeChildren_isRef hchildren child (List.mem_of_getElem? hchild)
      exact ⟨hash, by simp [hchild]⟩

theorem deserializeChildren_append {children : List Child} {bytes : List Bytes}
    (h : children.mapM Child.serialize = .ok bytes) (rest : Bytes) :
    deserializeChildren children.length (bytes.flatten ++ rest) = .ok (children, rest) := by
  induction children generalizing bytes with
  | nil =>
      cases h
      rfl
  | cons child children ih =>
      rw [List.mapM_cons] at h
      rcases Result.bind_eq_ok.mp h with ⟨first, hfirst, h⟩
      rcases Result.bind_eq_ok.mp h with ⟨others, hothers, h⟩
      cases h
      simp [deserializeChildren, Child.deserialize_append hfirst, ih hothers]

theorem length_keyToBuffer {key : Key} (h : key.length % 2 = 0) :
    (Key.keyToBuffer key).length = key.length / 2 := by
  have := Key.length_bufferToKey (Key.keyToBuffer key)
  rw [Key.bufferToKey_keyToBuffer h] at this
  omega

/-- The key that was padded to an even length is read back without the padding. -/
theorem key_append (key : Key) (rest : Bytes) :
    consume ((if key.length % 2 = 0 then key.length else key.length + 1) / 2)
        (Key.keyToBuffer (if key.length % 2 = 0 then key else 0 :: key) ++ rest) =
      (Key.keyToBuffer (if key.length % 2 = 0 then key else 0 :: key), rest) ∧
    (if key.length % 2 = 0 then
        Key.bufferToKey (Key.keyToBuffer (if key.length % 2 = 0 then key else 0 :: key))
      else (Key.bufferToKey (Key.keyToBuffer (if key.length % 2 = 0 then key else 0 :: key))).drop 1) =
      key := by
  by_cases heven : key.length % 2 = 0
  · simp only [heven, if_true]
    exact ⟨consume_append (length_keyToBuffer heven), Key.bufferToKey_keyToBuffer heven⟩
  · have heven' : (0 :: key).length % 2 = 0 := by
      rw [List.length_cons]
      omega
    simp only [heven, if_false]
    refine ⟨consume_append (length_keyToBuffer heven'), ?_⟩
    rw [Key.bufferToKey_keyToBuffer heven', List.drop_one, List.tail_cons]

/-- A node that was serialized reads back as it was. -/
theorem deserialize_append {node : Node} {bytes : Bytes} (h : serialize node = .ok bytes)
    (rest : Bytes) : deserialize (bytes ++ rest) = .ok (node, rest) := by
  unfold serialize at h
  rcases Result.bind_eq_ok.mp h with ⟨length, hlength, h⟩
  rcases Result.bind_eq_ok.mp h with ⟨children, hchildren, h⟩
  rcases Result.bind_eq_ok.mp h with ⟨content, hcontent, h⟩
  cases h
  have hread := deserializeChildren_append hchildren (content ++ rest)
  rw [List.length_map, List.length_finRange] at hread
  have hinner : ∀ v inner rest, Content.serialize v = .ok inner →
      Content.deserialize (inner ++ rest) = .ok (v, rest) := by
    intro v inner rest hv
    rw [Content.serialize_eq] at hv
    cases hv
    exact Content.deserialize_append v rest
  have hcontentRead := Optional.deserialize_append hinner hcontent rest
  have hchild : (fun i : Fin 16 => (((List.finRange 16).map node.children)[i]?).getD .none) =
      node.children := by
    funext i
    simp
  rcases key_append node.keyPrefix (children.flatten ++ (content ++ rest)) with ⟨hconsume, hkey⟩
  simp only [deserialize, List.append_assoc, UInt32.deserialize_append hlength, Result.ok_bind,
    hconsume, hkey, hread, hcontentRead, hchild, Result.pure_eq]

end Node

end UniqysKit
