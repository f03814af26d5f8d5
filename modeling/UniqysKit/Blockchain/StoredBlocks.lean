import UniqysKit.Blockchain.BlockStore
import UniqysKit.Blockchain.Codec
import UniqysKit.Library.LastEntry
import UniqysKit.Store

/-!
# The block store on a store of bytes

`block-store.ts` with the keys and the bytes that it gives to its store.  All kinds of entries share
one map from buffers to buffers: the height and the last consensus have a key of their own, and the
keys of the others begin with the first byte of the name of their kind.  `BlockStore` is what this
is for, five maps that have nothing to do with one another.
-/

namespace UniqysKit

open Library

/-- A store that behaves as a map on buffers. -/
structure ByteStore (σ : Type) where
  empty : σ
  get : σ → Bytes → Option Bytes
  set : σ → Bytes → Bytes → σ
  get_empty : ∀ key, get empty key = none
  get_set : ∀ store changed value key,
    get (set store changed value) key = if key = changed then some value else get store key

theorem Namespace.get_new (space : Namespace) (key : Bytes) :
    space.get bufferTruthy key (⟨.empty⟩ : InMemoryStore Bytes) = none := rfl

theorem Namespace.get_set (space : Namespace) (store : InMemoryStore Bytes)
    (changed value key : Bytes) :
    space.get bufferTruthy key (space.set changed value store) =
      if key = changed then some value else space.get bufferTruthy key store := by
  have htruthy : ∀ value, bufferTruthy value := fun _ => rfl
  simp only [Namespace.get, Namespace.set, InMemoryStore.get_set htruthy, fullKey_inj]

/-- A namespace of a store in memory is such a store, and so is the store itself, with an empty
prefix. -/
def Namespace.byteStore (space : Namespace) : ByteStore (InMemoryStore Bytes) where
  empty := ⟨.empty⟩
  get := fun store key => space.get bufferTruthy key store
  set := fun store key value => space.set key value store
  get_empty := space.get_new
  get_set := space.get_set

namespace StoredBlocks

/-! ## Keys -/

inductive Key
  | height
  | consensus
  | header (height : Nat)
  | body (height : Nat)
  | validatorSet (root : Hash)
  deriving DecidableEq

/-- `Buffer.from(text)`. -/
def Key.text (text : String) : Bytes := text.toUTF8.data.toList

/-- `w.ensure(1).write(text, 0, 1)`: one byte of the text. -/
def Key.firstByte (text : String) : Bytes := (Key.text text).take 1

def Key.buffer : Key → Result Bytes
  | .height => .ok (Key.text "height")
  | .consensus => .ok (Key.text "consensus")
  | .header h => do return Key.firstByte "header:" ++ (← UInt64.serialize h)
  | .body h => do return Key.firstByte "body:" ++ (← UInt64.serialize h)
  | .validatorSet root => .ok (Key.firstByte "validatorSet:" ++ root.buffer)

/-- The first byte and the length tell the kinds of keys apart. -/
def Key.shape : Key → Option UInt8 × Nat
  | .height => (some 104, 6)
  | .consensus => (some 99, 9)
  | .header _ => (some 104, 9)
  | .body _ => (some 98, 9)
  | .validatorSet _ => (some 118, 33)

theorem Key.shape_of_buffer {key : Key} {bytes : Bytes} (h : key.buffer = .ok bytes) :
    (bytes.head?, bytes.length) = key.shape := by
  cases key with
  | height =>
      cases h
      decide
  | consensus =>
      cases h
      decide
  | header number =>
      rcases Result.bind_eq_ok.mp h with ⟨written, hwritten, h⟩
      cases h
      rw [(UInt64.serialize_ok hwritten).2]
      simp [Key.shape, show Key.firstByte "header:" = [104] from rfl]
  | body number =>
      rcases Result.bind_eq_ok.mp h with ⟨written, hwritten, h⟩
      cases h
      rw [(UInt64.serialize_ok hwritten).2]
      simp [Key.shape, show Key.firstByte "body:" = [98] from rfl]
  | validatorSet root =>
      cases h
      simp [Key.shape, show Key.firstByte "validatorSet:" = [118] from rfl, root.size]

/-- The height can be read back from the bytes of a key. -/
theorem Key.height_inj {start bytes : Bytes} {m n : Nat}
    (hm : (do return start ++ (← UInt64.serialize m) : Result Bytes) = .ok bytes)
    (hn : (do return start ++ (← UInt64.serialize n) : Result Bytes) = .ok bytes) : m = n := by
  rcases Result.bind_eq_ok.mp hm with ⟨first, hfirst, hm⟩
  rcases Result.bind_eq_ok.mp hn with ⟨second, hsecond, hn⟩
  cases hm
  have heq : second = first := List.append_cancel_left (Except.ok.inj hn)
  subst heq
  have hread := UInt64.deserialize_append hfirst []
  rw [UInt64.deserialize_append hsecond []] at hread
  cases hread
  rfl

/-- No two keys share their bytes. -/
theorem Key.buffer_inj {key other : Key} {bytes : Bytes} (h : key.buffer = .ok bytes)
    (hother : other.buffer = .ok bytes) : key = other := by
  have hshape : key.shape = other.shape := by
    rw [← Key.shape_of_buffer h, Key.shape_of_buffer hother]
  -- the shapes of two kinds differ, so only keys of one kind are left to compare
  cases key with
  | height =>
      cases other with
      | height => rfl
      | _ => simp [Key.shape] at hshape
  | consensus =>
      cases other with
      | consensus => rfl
      | _ => simp [Key.shape] at hshape
  | header m =>
      cases other with
      | header n => rw [Key.height_inj h hother]
      | _ => simp [Key.shape] at hshape
  | body m =>
      cases other with
      | body n => rw [Key.height_inj h hother]
      | _ => simp [Key.shape] at hshape
  | validatorSet root =>
      cases other with
      | validatorSet root' =>
          cases h
          have hroot := List.append_cancel_left (Except.ok.inj hother)
          rw [Hash.ext_iff.mpr hroot]
      | _ => simp [Key.shape] at hshape

end StoredBlocks

/-! ## The operations -/

/-- A `BlockStore` object. -/
structure StoredBlocks (σ : Type) where
  store : σ
  /-- `_height` -/
  height : Option Nat

namespace StoredBlocks

variable {σ : Type} (base : ByteStore σ) (c : Crypto)

/-- `new BlockStore(store)`. -/
def new (store : σ) : StoredBlocks σ := ⟨store, none⟩

/-- `deserialize(buffer, deserializer)`: what follows the value is not looked at. -/
def decode {α : Type} (deserializer : Deserializer α) (buffer : Bytes) : Result α := do
  let (value, _) ← deserializer buffer
  return value

/-- What a getter makes of the entry of a key. -/
def read {α : Type} (key : Key) (deserializer : Deserializer α) (missing : Result α)
    (blocks : StoredBlocks σ) : Result α := do
  match base.get blocks.store (← key.buffer) with
  | some v => decode deserializer v
  | none => missing

/-- A cached height of 0 is not taken for true. -/
def getHeight (blocks : StoredBlocks σ) : Result Nat :=
  match blocks.height with
  | some (height + 1) => .ok (height + 1)
  | _ => blocks.read base .height UInt64.deserialize (.ok 0)

def getLastConsensus : StoredBlocks σ → Result Consensus :=
  read base .consensus Consensus.deserialize (.error ⟨"not found lastConsensus"⟩)

def getHeader (height : Nat) : StoredBlocks σ → Result BlockHeader :=
  read base (.header height) BlockHeader.deserialize (.error ⟨s!"not found header({height})"⟩)

def getBody (height : Nat) : StoredBlocks σ → Result BlockBody :=
  read base (.body height) BlockBody.deserialize (.error ⟨s!"not found body({height})"⟩)

/-- The text of the root is that of an object. -/
def getValidatorSet (root : Hash) : StoredBlocks σ → Result ValidatorSet :=
  read base (.validatorSet root) ValidatorSet.deserialize
    (.error ⟨"not found validatorSet([object Object])"⟩)

/-- The key is written first, then the value, and only then is the store changed. -/
def write (key : Key) (value : Result Bytes) : Action (StoredBlocks σ) Unit := do
  let key ← Action.fromResult key.buffer
  let value ← Action.fromResult value
  modify fun blocks => { blocks with store := base.set blocks.store key value }

def setHeight (height : Nat) : Action (StoredBlocks σ) Unit := do
  write base .height (UInt64.serialize height)
  modify fun blocks => { blocks with height := some height }

def setLastConsensus (consensus : Consensus) : Action (StoredBlocks σ) Unit :=
  write base .consensus consensus.serialize

/-- The constructor has written the header before, so this does not throw. -/
def serializeHeader : Serializer BlockHeader := fun header => .ok header.serialize

def setHeader (height : Nat) (header : BlockHeader) : Action (StoredBlocks σ) Unit :=
  write base (.header height) (serializeHeader header)

def setBody (height : Nat) (body : BlockBody) : Action (StoredBlocks σ) Unit :=
  write base (.body height) body.serialize

def setValidatorSet (validatorSet : ValidatorSet) : Action (StoredBlocks σ) Unit := do
  let root ← Action.fromResult (validatorSet.hash c)
  write base (.validatorSet root) validatorSet.serialize

/-! ## Calls one after another -/

inductive Call
  | setHeight (height : Nat)
  | setLastConsensus (consensus : Consensus)
  | setHeader (height : Nat) (header : BlockHeader)
  | setBody (height : Nat) (body : BlockBody)
  | setValidatorSet (validatorSet : ValidatorSet)
  /-- a new object over the same store -/
  | recreate

def perform : Call → Action (StoredBlocks σ) Unit
  | .setHeight height => setHeight base height
  | .setLastConsensus consensus => setLastConsensus base consensus
  | .setHeader height header => setHeader base height header
  | .setBody height body => setBody base height body
  | .setValidatorSet validatorSet => setValidatorSet base c validatorSet
  | .recreate => modify fun blocks => new blocks.store

/-- The object after a call, also where the call is rejected. -/
def serve (blocks : StoredBlocks σ) (call : Call) : StoredBlocks σ :=
  Fallible.final (perform base c call blocks)

/-- The object after calls that begin over an empty store. -/
def serveAll (calls : List Call) : StoredBlocks σ :=
  calls.foldl (serve base c) (new base.empty)

/-! ## What has been set -/

/-- A value that can be written. -/
def encodable {α : Type} (serializer : Serializer α) (value : α) : Option α :=
  match serializer value with
  | .ok _ => some value
  | .error _ => none

/-- The height that a call sets. -/
def Call.height? : Call → Option (Unit × Nat)
  | .setHeight height => (encodable UInt64.serialize height).map fun height => ((), height)
  | _ => none

def Call.consensus? : Call → Option (Unit × Consensus)
  | .setLastConsensus consensus =>
      (encodable Consensus.serialize consensus).map fun consensus => ((), consensus)
  | _ => none

def Call.header? : Call → Option (Nat × BlockHeader)
  | .setHeader height header =>
      (encodable serializeHeader header).map fun header => (height, header)
  | _ => none

def Call.body? : Call → Option (Nat × BlockBody)
  | .setBody height body => (encodable BlockBody.serialize body).map fun body => (height, body)
  | _ => none

def Call.validatorSet? : Call → Option (Hash × ValidatorSet)
  | .setValidatorSet validatorSet =>
      match validatorSet.hash c with
      | .ok root => (encodable ValidatorSet.serialize validatorSet).map fun set => (root, set)
      | .error _ => none
  | _ => none

/-- Five maps that each have the last value set for a key. -/
def lastValues (calls : List Call) : BlockStore where
  height := (lastEntry (calls.filterMap Call.height?) ()).getD 0
  cachedHeight := 0
  lastConsensus := lastEntry (calls.filterMap Call.consensus?) ()
  header := lastEntry (calls.filterMap Call.header?)
  body := lastEntry (calls.filterMap Call.body?)
  validatorSet := lastEntry (calls.filterMap (Call.validatorSet? c))

/-! ## What a call writes -/

/-- The entry that `write` makes. -/
def entry (key : Key) (value : Result Bytes) : Option (Key × Bytes) :=
  match key.buffer, value with
  | .ok _, .ok value => some (key, value)
  | _, _ => none

def Call.written : Call → Option (Key × Bytes)
  | .setHeight height => entry .height (UInt64.serialize height)
  | .setLastConsensus consensus => entry .consensus consensus.serialize
  | .setHeader height header => entry (.header height) (serializeHeader header)
  | .setBody height body => entry (.body height) body.serialize
  | .setValidatorSet validatorSet =>
      match validatorSet.hash c with
      | .ok root => entry (.validatorSet root) validatorSet.serialize
      | .error _ => none
  | .recreate => none

section Writes

variable {base c} {blocks : StoredBlocks σ} {key other : Key} {bytes : Bytes} {value : Result Bytes}

/-- How `write` can end. -/
theorem write_cases (base : ByteStore σ) (key : Key) (value : Result Bytes)
    (blocks : StoredBlocks σ) :
    (∃ bytes bytes', key.buffer = .ok bytes ∧ value = .ok bytes' ∧
        entry key value = some (key, bytes') ∧
        write base key value blocks =
          .ok () { blocks with store := base.set blocks.store bytes bytes' }) ∨
      ∃ e, entry key value = none ∧ write base key value blocks = .error e blocks := by
  cases hkey : key.buffer with
  | error e =>
      refine .inr ⟨e, by simp [entry, hkey], ?_⟩
      rw [write, Action.fromResult_bind_error hkey]
  | ok bytes =>
      cases value with
      | error e =>
          refine .inr ⟨e, by simp [entry, hkey], ?_⟩
          rw [write, Action.fromResult_bind_ok hkey]
          rfl
      | ok bytes' =>
          refine .inl ⟨bytes, bytes', rfl, rfl, by simp [entry, hkey], ?_⟩
          rw [write, Action.fromResult_bind_ok hkey]
          rfl

theorem height_write : (Fallible.final (write base key value blocks)).height = blocks.height := by
  rcases write_cases base key value blocks with ⟨_, _, -, -, -, hwrite⟩ | ⟨e, -, hwrite⟩
  · rw [hwrite, Fallible.final_ok]
  · rw [hwrite, Fallible.final_error]

theorem get_write (hother : other.buffer = .ok bytes) :
    base.get (Fallible.final (write base key value blocks)).store bytes =
      (entryAt (entry key value) other).or (base.get blocks.store bytes) := by
  rcases write_cases base key value blocks with
    ⟨written, bytes', hkey, -, hentry, hwrite⟩ | ⟨e, hentry, hwrite⟩
  · -- the place that is written is the one of the key, and no other
    rw [hwrite, hentry, Fallible.final_ok, base.get_set, entryAt]
    by_cases hsame : key = other
    · subst hsame
      rw [hkey] at hother
      rw [if_pos rfl, if_pos (Except.ok.inj hother).symm, Option.some_or]
    · have hne : bytes ≠ written := by
        rintro rfl
        exact hsame (Key.buffer_inj hkey hother)
      rw [if_neg hsame, if_neg hne, Option.none_or]
  · rw [hwrite, hentry, Fallible.final_error, entryAt, Option.none_or]

/-- A call leaves every place of the store as it is, except for the one it has an entry for. -/
theorem get_serve (hother : other.buffer = .ok bytes) (call : Call) :
    base.get (serve base c blocks call).store bytes =
      (entryAt (call.written c) other).or (base.get blocks.store bytes) := by
  cases call with
  | setHeight height =>
      -- the cache is written after the store, and is no part of it
      have hstore : (serve base c blocks (.setHeight height)).store =
          (Fallible.final (write base .height (UInt64.serialize height) blocks)).store := by
        rw [serve, perform, setHeight]
        rcases write_cases base .height (UInt64.serialize height) blocks with
          ⟨_, _, -, -, -, hwrite⟩ | ⟨e, -, hwrite⟩
        · rw [Fallible.bind_ok hwrite, hwrite]
          rfl
        · rw [Fallible.bind_error hwrite, hwrite]
      rw [hstore]
      exact get_write hother
  | setLastConsensus consensus => exact get_write hother
  | setHeader height header => exact get_write hother
  | setBody height body => exact get_write hother
  | setValidatorSet validatorSet =>
      rw [serve, perform, setValidatorSet, Call.written]
      cases hhash : validatorSet.hash c with
      | ok root =>
          rw [Action.fromResult_bind_ok rfl]
          exact get_write hother
      | error e =>
          rw [Action.fromResult_bind_error rfl]
          exact (Option.none_or).symm
  | recreate => exact (Option.none_or).symm

/-- What a call leaves in the cache is what it sets, or what was there. -/
theorem height_serve (call : Call) {height : Nat}
    (h : (serve base c blocks call).height = some height) :
    (entryAt call.height? ()).or blocks.height = some height := by
  cases call with
  | setHeight written =>
      rw [serve, perform, setHeight] at h
      rcases write_cases base .height (UInt64.serialize written) blocks with
        ⟨_, _, -, hvalue, -, hwrite⟩ | ⟨e, hentry, hwrite⟩
      · rw [Fallible.bind_ok hwrite] at h
        cases h
        simp [Call.height?, encodable, hvalue, entryAt]
      · -- a height that is refused is not cached either
        rw [Fallible.bind_error hwrite] at h
        have hnone : Call.height? (.setHeight written) = none := by
          cases hvalue : UInt64.serialize written with
          | ok bytes => simp [entry, Key.buffer, hvalue] at hentry
          | error e => simp [Call.height?, encodable, hvalue]
        rw [hnone]
        exact h
  | setLastConsensus consensus => rwa [serve, perform, setLastConsensus, height_write] at h
  | setHeader number header => rwa [serve, perform, setHeader, height_write] at h
  | setBody number body => rwa [serve, perform, setBody, height_write] at h
  | setValidatorSet validatorSet =>
      rw [serve, perform, setValidatorSet] at h
      -- a validator set that has no hash is not written at all
      cases hhash : validatorSet.hash c with
      | ok root =>
          rw [hhash, Action.fromResult_bind_ok rfl, height_write] at h
          exact h
      | error e =>
          rw [hhash, Action.fromResult_bind_error rfl] at h
          exact h
  | recreate => cases h

/-- Where the cache has a height, it is the one that was set last. -/
theorem height_foldl {calls : List Call} {height : Nat}
    (h : (calls.foldl (serve base c) blocks).height = some height) :
    (lastEntry (calls.filterMap Call.height?) ()).or blocks.height = some height := by
  induction calls generalizing blocks with
  | nil => exact h
  | cons call calls ih =>
      rw [List.foldl_cons] at h
      rw [lastEntry_filterMap_cons, Option.or_assoc]
      have hrest := ih h
      -- a height that is set later overwrites what this call leaves
      cases hlast : lastEntry (calls.filterMap Call.height?) () with
      | some last => rwa [hlast] at hrest
      | none =>
          rw [hlast, Option.none_or] at hrest
          rw [Option.none_or]
          exact height_serve call hrest

end Writes

/-! ## The five maps -/

section Maps

variable {base c} {key other : Key} {bytes : Bytes}

/-- What a place of the store holds after calls is what the last call for its key has written. -/
theorem get_serveAll (hother : other.buffer = .ok bytes) (calls : List Call) :
    base.get (serveAll base c calls).store bytes =
      lastEntry (calls.filterMap (Call.written c)) other :=
  foldl_eq_lastEntry_of_none (fun blocks : StoredBlocks σ => base.get blocks.store bytes)
    (fun _ call => get_serve hother call) calls (base.get_empty bytes)

theorem entryAt_entry_of_ne {value : Result Bytes} (hne : key ≠ other) :
    entryAt (entry key value) other = none := by
  unfold entry
  split
  · exact if_neg hne
  · rfl

/-- A value that is written under a key is read back from there, and from nowhere else. -/
theorem decode_entry {K α : Type} [DecidableEq K] {k k' : K} {serializer : Serializer α}
    {deserializer : Deserializer α} {value : α} (hsame : key = other ↔ k = k')
    (hother : other.buffer = .ok bytes)
    (hread : ∀ bytes rest, serializer value = .ok bytes →
      deserializer (bytes ++ rest) = .ok (value, rest)) :
    (entryAt (entry key (serializer value)) other).map (decode deserializer) =
      (entryAt ((encodable serializer value).map fun value => (k, value)) k').map .ok := by
  by_cases hk : key = other
  · subst hk
    cases hvalue : serializer value with
    | error e => simp [entry, encodable, hvalue, hother, entryAt]
    | ok written =>
        have hdecode := hread written [] hvalue
        rw [List.append_nil] at hdecode
        simp [entry, encodable, hvalue, hother, entryAt, hsame.mp rfl, decode, hdecode]
  · have hne : ¬ k = k' := fun h => hk (hsame.mpr h)
    have hright : entryAt ((encodable serializer value).map fun value => (k, value)) k' = none := by
      cases encodable serializer value with
      | none => rfl
      | some value => exact if_neg hne
    rw [entryAt_entry_of_ne hk, hright]
    rfl

/-- A getter returns the last value that was set, where it is decoded from what the calls write. -/
theorem read_serveAll {K α : Type} [DecidableEq K] {k : K} {deserializer : Deserializer α}
    {value? : Call → Option (K × α)} (hkey : key.buffer = .ok bytes)
    (hdecode : ∀ call, (entryAt (call.written c) key).map (decode deserializer) =
      (entryAt (value? call) k).map .ok) (missing : Result α) (calls : List Call) :
    (serveAll base c calls).read base key deserializer missing =
      (lastEntry (calls.filterMap value?) k).elim missing .ok := by
  have hlast := lastEntry_congr hdecode calls
  rw [read, hkey, Result.ok_bind, get_serveAll hkey]
  cases hvalue : lastEntry (calls.filterMap value?) k with
  | some value =>
      rw [hvalue, Option.map_some, Option.map_eq_some_iff] at hlast
      rcases hlast with ⟨written, hwritten, hdecoded⟩
      rw [hwritten]
      exact hdecoded
  | none =>
      rw [hvalue, Option.map_none, Option.map_eq_none_iff] at hlast
      rw [hlast]
      rfl

/-- What a call writes elsewhere is nothing to a key. -/
theorem decode_other {α : Type} {decoded : Bytes → Result α} {value : Result Bytes}
    (hne : key ≠ other) : (entryAt (entry key value) other).map decoded = none := by
  rw [entryAt_entry_of_ne hne, Option.map_none]

theorem decode_validatorSet_other {α : Type} {decoded : Bytes → Result α}
    (validatorSet : ValidatorSet) (hne : ∀ root, Key.validatorSet root ≠ other) :
    (entryAt (Call.written c (.setValidatorSet validatorSet)) other).map decoded = none := by
  rw [Call.written]
  cases validatorSet.hash c with
  | ok root => exact decode_other (hne root)
  | error e => rfl

theorem decode_height (call : Call) :
    (entryAt (call.written c) .height).map (decode UInt64.deserialize) =
      (entryAt call.height? ()).map .ok := by
  cases call with
  | setHeight height =>
      exact decode_entry (by simp) rfl fun bytes rest h => UInt64.deserialize_append h rest
  | setValidatorSet validatorSet => exact decode_validatorSet_other validatorSet nofun
  | recreate => rfl
  | _ => exact decode_other nofun

theorem decode_consensus (call : Call) :
    (entryAt (call.written c) .consensus).map (decode Consensus.deserialize) =
      (entryAt call.consensus? ()).map .ok := by
  cases call with
  | setLastConsensus consensus =>
      exact decode_entry (by simp) rfl fun bytes rest h => Consensus.deserialize_append h rest
  | setValidatorSet validatorSet => exact decode_validatorSet_other validatorSet nofun
  | recreate => rfl
  | _ => exact decode_other nofun

theorem decode_header {height : Nat} (hkey : (Key.header height).buffer = .ok bytes) (call : Call) :
    (entryAt (call.written c) (.header height)).map (decode BlockHeader.deserialize) =
      (entryAt call.header? height).map .ok := by
  cases call with
  | setHeader number header =>
      refine decode_entry (by simp) hkey ?_
      rintro bytes rest ⟨⟩
      exact BlockHeader.deserialize_append header rest
  | setValidatorSet validatorSet => exact decode_validatorSet_other validatorSet nofun
  | recreate => rfl
  | _ => exact decode_other nofun

theorem decode_body {height : Nat} (hkey : (Key.body height).buffer = .ok bytes) (call : Call) :
    (entryAt (call.written c) (.body height)).map (decode BlockBody.deserialize) =
      (entryAt call.body? height).map .ok := by
  cases call with
  | setBody number body =>
      exact decode_entry (by simp) hkey fun bytes rest h => BlockBody.deserialize_append h rest
  | setValidatorSet validatorSet => exact decode_validatorSet_other validatorSet nofun
  | recreate => rfl
  | _ => exact decode_other nofun

theorem decode_validatorSet (root : Hash) (call : Call) :
    (entryAt (call.written c) (.validatorSet root)).map (decode ValidatorSet.deserialize) =
      (entryAt (call.validatorSet? c) root).map .ok := by
  cases call with
  | setValidatorSet validatorSet =>
      rw [Call.written, Call.validatorSet?]
      cases validatorSet.hash c with
      | ok root' =>
          exact decode_entry (by simp) rfl
            fun bytes rest h => ValidatorSet.deserialize_append h rest
      | error e => rfl
  | recreate => rfl
  | _ => exact decode_other nofun

/-- The cache answers what the store would. -/
theorem getHeight_serveAll (calls : List Call) :
    (serveAll base c calls).getHeight base =
      .ok ((lastEntry (calls.filterMap Call.height?) ()).getD 0) := by
  have hread : (serveAll base c calls).read base .height UInt64.deserialize (.ok 0) =
      .ok ((lastEntry (calls.filterMap Call.height?) ()).getD 0) := by
    rw [read_serveAll rfl decode_height]
    cases lastEntry (calls.filterMap Call.height?) () with
    | some height => rfl
    | none => rfl
  unfold getHeight
  split
  · -- what is cached is what was set last
    rename_i height hcached
    have hlast := height_foldl hcached
    rw [new, Option.or_none] at hlast
    rw [hlast]
    rfl
  · exact hread

/-! ### The getters of the maps -/

variable (maps : BlockStore)

theorem getLastConsensus_maps : maps.getLastConsensus =
    maps.lastConsensus.elim (.error ⟨"not found lastConsensus"⟩) .ok := by
  unfold BlockStore.getLastConsensus
  cases maps.lastConsensus with
  | some consensus => rfl
  | none => rfl

theorem getHeader_maps (height : Nat) : maps.getHeader height =
    (maps.header height).elim (.error ⟨s!"not found header({height})"⟩) .ok := by
  unfold BlockStore.getHeader
  cases maps.header height with
  | some header => rfl
  | none => rfl

theorem getBody_maps (height : Nat) : maps.getBody height =
    (maps.body height).elim (.error ⟨s!"not found body({height})"⟩) .ok := by
  unfold BlockStore.getBody
  cases maps.body height with
  | some body => rfl
  | none => rfl

theorem getValidatorSet_maps (root : Hash) : maps.getValidatorSet root =
    (maps.validatorSet root).elim (.error ⟨"not found validatorSet([object Object])"⟩) .ok := by
  unfold BlockStore.getValidatorSet
  cases maps.validatorSet root with
  | some validatorSet => rfl
  | none => rfl

variable (base c) (calls : List Call)

theorem getLastConsensus_serveAll : (serveAll base c calls).getLastConsensus base =
    (lastValues c calls).getLastConsensus := by
  rw [getLastConsensus, read_serveAll rfl decode_consensus, getLastConsensus_maps]
  rfl

theorem getHeader_serveAll {height : Nat} (hlt : height < 2 ^ 48) :
    (serveAll base c calls).getHeader base height = (lastValues c calls).getHeader height := by
  obtain ⟨bytes, hkey⟩ : ∃ bytes, (Key.header height).buffer = .ok bytes := by
    simp [Key.buffer, UInt64.serialize_of_lt hlt]
  rw [getHeader, read_serveAll hkey (decode_header hkey), getHeader_maps]
  rfl

theorem getBody_serveAll {height : Nat} (hlt : height < 2 ^ 48) :
    (serveAll base c calls).getBody base height = (lastValues c calls).getBody height := by
  obtain ⟨bytes, hkey⟩ : ∃ bytes, (Key.body height).buffer = .ok bytes := by
    simp [Key.buffer, UInt64.serialize_of_lt hlt]
  rw [getBody, read_serveAll hkey (decode_body hkey), getBody_maps]
  rfl

theorem getValidatorSet_serveAll (root : Hash) : (serveAll base c calls).getValidatorSet base root =
    (lastValues c calls).getValidatorSet root := by
  rw [getValidatorSet, read_serveAll rfl (decode_validatorSet root), getValidatorSet_maps]
  rfl

end Maps

/-- After any calls, over any store that behaves as a map, each getter answers as five maps do that
have the last values that could be written: also where the object was made anew between calls. -/
theorem getters_eq_lastValues (base : ByteStore σ) (c : Crypto) (calls : List Call) :
    (serveAll base c calls).getHeight base = .ok (lastValues c calls).height ∧
      (serveAll base c calls).getLastConsensus base = (lastValues c calls).getLastConsensus ∧
      (∀ height < 2 ^ 48,
        (serveAll base c calls).getHeader base height = (lastValues c calls).getHeader height ∧
          (serveAll base c calls).getBody base height = (lastValues c calls).getBody height) ∧
      ∀ root, (serveAll base c calls).getValidatorSet base root =
        (lastValues c calls).getValidatorSet root :=
  ⟨getHeight_serveAll calls, getLastConsensus_serveAll base c calls,
    fun _ hlt => ⟨getHeader_serveAll base c calls hlt, getBody_serveAll base c calls hlt⟩,
    getValidatorSet_serveAll base c calls⟩

/-! ## The maps that the chain is modelled over -/

/-- What a call does to `BlockStore`, where its value can be written. -/
def apply (maps : BlockStore) : Call → BlockStore
  | .setHeight height =>
      match encodable UInt64.serialize height with
      | some height => (maps.setHeight height).cacheHeight height
      | none => maps
  | .setLastConsensus consensus =>
      match encodable Consensus.serialize consensus with
      | some consensus => maps.setLastConsensus consensus
      | none => maps
  | .setHeader height header => maps.setHeader height header
  | .setBody height body =>
      match encodable BlockBody.serialize body with
      | some body => maps.setBody height body
      | none => maps
  | .setValidatorSet validatorSet =>
      match validatorSet.hash c, encodable ValidatorSet.serialize validatorSet with
      | .ok root, some validatorSet => maps.putValidatorSet root validatorSet
      | _, _ => maps
  | .recreate => { maps with cachedHeight := 0 }

section Apply

variable {c} (calls : List Call) (maps : BlockStore)

/-- A place of a map that is updated. -/
theorem update_eq {K α : Type} [DecidableEq K] (f : K → Option α) (k k' : K) (value : α) :
    Function.update f k (some value) k' = (entryAt (some (k, value)) k').or (f k') := by
  by_cases h : k = k'
  · subst h
    simp [entryAt]
  · simp [entryAt, h, Ne.symm h]

theorem height_apply (call : Call) : some (apply c maps call).height =
    (entryAt call.height? ()).or (some maps.height) := by
  fun_cases apply c maps call with
  | case1 height written hwritten => rw [Call.height?, hwritten]; rfl
  | case2 height hwritten => rw [Call.height?, hwritten]; rfl
  | _ => rfl

theorem lastConsensus_apply (call : Call) : (apply c maps call).lastConsensus =
    (entryAt call.consensus? ()).or maps.lastConsensus := by
  fun_cases apply c maps call with
  | case3 consensus written hwritten => rw [Call.consensus?, hwritten]; rfl
  | case4 consensus hwritten => rw [Call.consensus?, hwritten]; rfl
  | _ => rfl

theorem header_apply (call : Call) (height : Nat) : (apply c maps call).header height =
    (entryAt call.header? height).or (maps.header height) := by
  fun_cases apply c maps call with
  | case5 number header => exact update_eq maps.header number height header
  | _ => rfl

theorem body_apply (call : Call) (height : Nat) : (apply c maps call).body height =
    (entryAt call.body? height).or (maps.body height) := by
  fun_cases apply c maps call with
  | case6 number body written hwritten =>
      rw [Call.body?, hwritten]
      exact update_eq maps.body number height written
  | case7 number body hwritten => rw [Call.body?, hwritten]; rfl
  | _ => rfl

theorem validatorSet_apply (call : Call) (root : Hash) : (apply c maps call).validatorSet root =
    (entryAt (call.validatorSet? c) root).or (maps.validatorSet root) := by
  fun_cases apply c maps call with
  | case8 validatorSet root' written hhash hwritten =>
      have hcall :
          Call.validatorSet? c (.setValidatorSet validatorSet) = some (root', written) := by
        simp only [Call.validatorSet?, hhash, hwritten, Option.map_some]
      rw [hcall]
      exact update_eq maps.validatorSet root' root written
  | case9 validatorSet hnone =>
      have hcall : Call.validatorSet? c (.setValidatorSet validatorSet) = none := by
        simp only [Call.validatorSet?]
        split
        · rename_i root' hhash
          cases hwritten : encodable ValidatorSet.serialize validatorSet with
          | none => rfl
          | some written => exact absurd hwritten (hnone root' written hhash)
        · rfl
      rw [hcall]
      rfl
  | _ => rfl

/-- The cache has the height of the map, or nothing. -/
theorem getHeight_apply {maps : BlockStore} (call : Call)
    (h : maps.cachedHeight = 0 ∨ maps.cachedHeight = maps.height) :
    (apply c maps call).cachedHeight = 0 ∨
      (apply c maps call).cachedHeight = (apply c maps call).height := by
  fun_cases apply c maps call with
  | case1 height written hwritten => exact .inr rfl
  | case10 => exact .inl rfl
  | _ => exact h

theorem getHeight_foldl_apply {calls : List Call} {maps : BlockStore}
    (h : maps.cachedHeight = 0 ∨ maps.cachedHeight = maps.height) :
    (calls.foldl (apply c) maps).getHeight = (calls.foldl (apply c) maps).height := by
  induction calls generalizing maps with
  | nil =>
      rw [List.foldl_nil, BlockStore.getHeight]
      split
      · rfl
      · rename_i hcached
        exact h.resolve_left hcached
  | cons call calls ih => exact ih (getHeight_apply call h)

variable (c)

/-- Calls on empty maps leave the last values in them. -/
theorem height_foldl_apply : (calls.foldl (apply c) BlockStore.empty).height =
    (lastValues c calls).height := by
  have h := foldl_eq_lastEntry (apply c) (fun maps : BlockStore => some maps.height) height_apply
    calls BlockStore.empty
  change some _ = (lastEntry (calls.filterMap Call.height?) ()).or (some 0) at h
  rw [lastValues]
  cases hlast : lastEntry (calls.filterMap Call.height?) () with
  | some height =>
      rw [hlast] at h
      exact Option.some.inj h
  | none =>
      rw [hlast] at h
      exact Option.some.inj h

theorem lastConsensus_foldl_apply : (calls.foldl (apply c) BlockStore.empty).lastConsensus =
    (lastValues c calls).lastConsensus :=
  foldl_eq_lastEntry_of_none BlockStore.lastConsensus lastConsensus_apply calls rfl

theorem header_foldl_apply (height : Nat) :
    (calls.foldl (apply c) BlockStore.empty).header height = (lastValues c calls).header height :=
  foldl_eq_lastEntry_of_none (fun maps : BlockStore => maps.header height)
    (fun maps call => header_apply maps call height) calls rfl

theorem body_foldl_apply (height : Nat) :
    (calls.foldl (apply c) BlockStore.empty).body height = (lastValues c calls).body height :=
  foldl_eq_lastEntry_of_none (fun maps : BlockStore => maps.body height)
    (fun maps call => body_apply maps call height) calls rfl

theorem validatorSet_foldl_apply (root : Hash) :
    (calls.foldl (apply c) BlockStore.empty).validatorSet root =
      (lastValues c calls).validatorSet root :=
  foldl_eq_lastEntry_of_none (fun maps : BlockStore => maps.validatorSet root)
    (fun maps call => validatorSet_apply maps call root) calls rfl

end Apply

/-- The maps that the chain is modelled over answer as the store of bytes does. -/
theorem getters_eq_maps (base : ByteStore σ) (c : Crypto) (calls : List Call) :
    let maps := calls.foldl (apply c) BlockStore.empty
    (serveAll base c calls).getHeight base = .ok maps.getHeight ∧
      (serveAll base c calls).getLastConsensus base = maps.getLastConsensus ∧
      (∀ height < 2 ^ 48,
        (serveAll base c calls).getHeader base height = maps.getHeader height ∧
          (serveAll base c calls).getBody base height = maps.getBody height) ∧
      ∀ root, (serveAll base c calls).getValidatorSet base root = maps.getValidatorSet root := by
  refine ⟨?_, ?_, ?_, ?_⟩
  · rw [getHeight_foldl_apply (.inl rfl), height_foldl_apply]
    exact getHeight_serveAll calls
  · rw [getLastConsensus_serveAll, getLastConsensus_maps, getLastConsensus_maps,
      lastConsensus_foldl_apply]
  · intro height hlt
    refine ⟨?_, ?_⟩
    · rw [getHeader_serveAll base c calls hlt, getHeader_maps, getHeader_maps, header_foldl_apply]
    · rw [getBody_serveAll base c calls hlt, getBody_maps, getBody_maps, body_foldl_apply]
  · intro root
    rw [getValidatorSet_serveAll, getValidatorSet_maps, getValidatorSet_maps,
      validatorSet_foldl_apply]

end StoredBlocks
end UniqysKit
