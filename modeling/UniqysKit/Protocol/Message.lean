import UniqysKit.Blockchain.Codec

/-!
# Messages between nodes

`packages/protocol/src/message.ts`.  A message is a code of one byte and the fields of its kind; the
code says how the rest is read.
-/

namespace UniqysKit
namespace Protocol

/-- The eleven kinds of message. -/
inductive Message
  | hello (height : Nat) (genesis : Hash)
  | newTransaction (transaction : Transaction)
  | newBlock (block : Block) (consensus : Consensus)
  | newBlockHeight (height : Nat)
  | newConsensusMessage (message : ConsensusMessage)
  | getConsentedHeader (height : Nat)
  | consentedHeader (header : BlockHeader) (consensus : Consensus) (validatorSet : ValidatorSet)
  | getHeaders (start : Nat) (count : Nat)
  | headers (headers : List BlockHeader)
  | getBodies (start : Nat) (count : Nat)
  | bodies (bodies : List BlockBody)
  deriving DecidableEq

namespace Message

def code : Message → Nat
  | .hello .. => 0x00
  | .newTransaction .. => 0x10
  | .newBlock .. => 0x11
  | .newBlockHeight .. => 0x12
  | .newConsensusMessage .. => 0x13
  | .getConsentedHeader .. => 0x20
  | .consentedHeader .. => 0x30
  | .getHeaders .. => 0x21
  | .headers .. => 0x31
  | .getBodies .. => 0x22
  | .bodies .. => 0x32

/-! ## The fields of each kind -/

/-- The `serialize` of the class. -/
def serializeFields : Message → Result Bytes
  | .hello height genesis => do return (← UInt64.serialize height) ++ genesis.serialize
  | .newTransaction transaction => .ok transaction.serialize
  | .newBlock block consensus => do return (← block.serialize) ++ (← consensus.serialize)
  | .newBlockHeight height => UInt64.serialize height
  | .newConsensusMessage message => message.serialize
  | .getConsentedHeader height => UInt64.serialize height
  | .consentedHeader header consensus validatorSet => do
      return header.serialize ++ (← consensus.serialize) ++ (← validatorSet.serialize)
  | .getHeaders start count => do return (← UInt64.serialize start) ++ (← UInt32.serialize count)
  | .headers list => List.serialize (fun header => .ok (BlockHeader.serialize header)) list
  | .getBodies start count => do return (← UInt64.serialize start) ++ (← UInt32.serialize count)
  | .bodies list => List.serialize BlockBody.serialize list

/-- A class with one field. -/
def deserializeOne {α : Type} (field : Deserializer α) (message : α → Message) :
    Deserializer Message := fun reader => do
  let (a, rest) ← field reader
  return (message a, rest)

/-- A class with two fields. -/
def deserializeTwo {α β : Type} (first : Deserializer α) (second : Deserializer β)
    (message : α → β → Message) : Deserializer Message := fun reader => do
  let (a, rest) ← first reader
  let (b, rest) ← second rest
  return (message a b, rest)

def deserializeHello : Deserializer Message := deserializeTwo UInt64.deserialize Hash.deserialize hello

def deserializeNewTransaction : Deserializer Message :=
  deserializeOne Transaction.deserialize newTransaction

def deserializeNewBlock : Deserializer Message :=
  deserializeTwo Block.deserialize Consensus.deserialize newBlock

def deserializeNewBlockHeight : Deserializer Message :=
  deserializeOne UInt64.deserialize newBlockHeight

def deserializeNewConsensusMessage : Deserializer Message :=
  deserializeOne ConsensusMessage.deserialize newConsensusMessage

def deserializeGetConsentedHeader : Deserializer Message :=
  deserializeOne UInt64.deserialize getConsentedHeader

def deserializeConsentedHeader : Deserializer Message := fun reader => do
  let (header, rest) ← BlockHeader.deserialize reader
  let (consensus, rest) ← Consensus.deserialize rest
  let (validatorSet, rest) ← ValidatorSet.deserialize rest
  return (.consentedHeader header consensus validatorSet, rest)

def deserializeGetHeaders : Deserializer Message :=
  deserializeTwo UInt64.deserialize UInt32.deserialize getHeaders

def deserializeHeaders : Deserializer Message :=
  deserializeOne (List.deserialize BlockHeader.deserialize) headers

def deserializeGetBodies : Deserializer Message :=
  deserializeTwo UInt64.deserialize UInt32.deserialize getBodies

def deserializeBodies : Deserializer Message :=
  deserializeOne (List.deserialize BlockBody.deserialize) bodies

/-! ## Messages -/

def serialize (msg : Message) : Result Bytes := do
  return (← UInt8.serialize msg.code) ++ (← msg.serializeFields)

/-- How the fields behind a code are read. -/
def deserializeFields : Nat → Deserializer Message
  | 0x00 => deserializeHello
  | 0x10 => deserializeNewTransaction
  | 0x11 => deserializeNewBlock
  | 0x12 => deserializeNewBlockHeight
  | 0x13 => deserializeNewConsensusMessage
  | 0x20 => deserializeGetConsentedHeader
  | 0x30 => deserializeConsentedHeader
  | 0x21 => deserializeGetHeaders
  | 0x31 => deserializeHeaders
  | 0x22 => deserializeGetBodies
  | 0x32 => deserializeBodies
  | _ => fun _ => .error ⟨"Unknown message code"⟩

def deserialize : Deserializer Message := fun reader => do
  let (code, rest) ← UInt8.deserialize reader
  deserializeFields code rest

/-- All numbers and lengths are in the range of their writers. -/
def Encodable : Message → Prop
  | .hello height _ => height < 2 ^ 48
  | .newTransaction _ => True
  | .newBlock block consensus => block.body.Encodable ∧ consensus.Encodable
  | .newBlockHeight height => height < 2 ^ 48
  | .newConsensusMessage message => message.Encodable
  | .getConsentedHeader height => height < 2 ^ 48
  | .consentedHeader _ consensus validatorSet => consensus.Encodable ∧ validatorSet.Encodable
  | .getHeaders start count => start < 2 ^ 48 ∧ count < 2 ^ 32
  | .headers list => list.length < 2 ^ 32
  | .getBodies start count => start < 2 ^ 48 ∧ count < 2 ^ 32
  | .bodies list => list.length < 2 ^ 32 ∧ ∀ body ∈ list, body.Encodable

instance : (msg : Message) → Decidable msg.Encodable
  | .hello height _ => inferInstanceAs (Decidable (height < 2 ^ 48))
  | .newTransaction _ => inferInstanceAs (Decidable True)
  | .newBlock .. => inferInstanceAs (Decidable (_ ∧ _))
  | .newBlockHeight height => inferInstanceAs (Decidable (height < 2 ^ 48))
  | .newConsensusMessage message => inferInstanceAs (Decidable message.Encodable)
  | .getConsentedHeader height => inferInstanceAs (Decidable (height < 2 ^ 48))
  | .consentedHeader .. => inferInstanceAs (Decidable (_ ∧ _))
  | .getHeaders .. => inferInstanceAs (Decidable (_ ∧ _))
  | .headers list => inferInstanceAs (Decidable (list.length < 2 ^ 32))
  | .getBodies .. => inferInstanceAs (Decidable (_ ∧ _))
  | .bodies list => inferInstanceAs (Decidable (_ ∧ ∀ body ∈ list, body.Encodable))

/-! ## Round trips -/

variable {msg : Message} {bytes : Bytes}

theorem deserializeOne_append {α : Type} {field : Deserializer α} {message : α → Message} {a : α}
    {rest : Bytes} (h : field (bytes ++ rest) = .ok (a, rest)) :
    deserializeOne field message (bytes ++ rest) = .ok (message a, rest) := by
  simp [deserializeOne, h]

theorem deserializeTwo_append {α β : Type} {first : Deserializer α} {second : Deserializer β}
    {message : α → β → Message} {a : α} {b : β} {bytes' rest : Bytes}
    (h : first (bytes ++ (bytes' ++ rest)) = .ok (a, bytes' ++ rest))
    (h' : second (bytes' ++ rest) = .ok (b, rest)) :
    deserializeTwo first second message (bytes ++ bytes' ++ rest) = .ok (message a b, rest) := by
  simp [deserializeTwo, h, h']

/-- The fields of a message are read back under its code. -/
theorem deserializeFields_append (h : msg.serializeFields = .ok bytes) (rest : Bytes) :
    deserializeFields msg.code (bytes ++ rest) = .ok (msg, rest) := by
  cases msg with
  | hello height genesis =>
      rcases Result.bind_eq_ok.1 h with ⟨first, hfirst, h⟩
      cases h
      exact deserializeTwo_append (UInt64.deserialize_append hfirst _)
        (Hash.deserialize_append genesis rest)
  | newTransaction transaction =>
      cases h
      exact deserializeOne_append (transaction.deserialize_append rest)
  | newBlock block consensus =>
      rcases Result.bind_eq_ok.1 h with ⟨first, hfirst, h⟩
      rcases Result.bind_eq_ok.1 h with ⟨second, hsecond, h⟩
      cases h
      exact deserializeTwo_append (Block.deserialize_append hfirst _)
        (Consensus.deserialize_append hsecond rest)
  | newBlockHeight height => exact deserializeOne_append (UInt64.deserialize_append h rest)
  | newConsensusMessage message =>
      exact deserializeOne_append (ConsensusMessage.deserialize_append h rest)
  | getConsentedHeader height => exact deserializeOne_append (UInt64.deserialize_append h rest)
  | consentedHeader header consensus validatorSet =>
      rcases Result.bind_eq_ok.1 h with ⟨second, hsecond, h⟩
      rcases Result.bind_eq_ok.1 h with ⟨third, hthird, h⟩
      cases h
      simp [code, deserializeFields, deserializeConsentedHeader, BlockHeader.deserialize_append,
        Consensus.deserialize_append hsecond, ValidatorSet.deserialize_append hthird]
  | getHeaders start count =>
      rcases Result.bind_eq_ok.1 h with ⟨first, hfirst, h⟩
      rcases Result.bind_eq_ok.1 h with ⟨second, hsecond, h⟩
      cases h
      exact deserializeTwo_append (UInt64.deserialize_append hfirst _)
        (UInt32.deserialize_append hsecond rest)
  | headers headers =>
      refine deserializeOne_append (List.deserialize_append ?_ h rest)
      -- a list is read item by item
      rintro header - bytes rest ⟨⟩
      exact BlockHeader.deserialize_append header rest
  | getBodies start count =>
      rcases Result.bind_eq_ok.1 h with ⟨first, hfirst, h⟩
      rcases Result.bind_eq_ok.1 h with ⟨second, hsecond, h⟩
      cases h
      exact deserializeTwo_append (UInt64.deserialize_append hfirst _)
        (UInt32.deserialize_append hsecond rest)
  | bodies bodies =>
      refine deserializeOne_append (List.deserialize_append ?_ h rest)
      intro body _ bytes rest hbody
      exact BlockBody.deserialize_append hbody rest

/-- Every code is a byte. -/
theorem code_lt (msg : Message) : msg.code < 256 := by
  cases msg <;> simp [code]

/-- An encodable message can be written. -/
theorem exists_serializeFields (h : msg.Encodable) : ∃ bytes, msg.serializeFields = .ok bytes := by
  cases msg with
  | hello height genesis => simp [serializeFields, UInt64.serialize_of_lt h]
  | newTransaction transaction => exact ⟨_, rfl⟩
  | newBlock block consensus =>
      rcases Block.exists_serialize h.1 with ⟨first, hfirst⟩
      rcases Consensus.exists_serialize h.2 with ⟨second, hsecond⟩
      simp [serializeFields, hfirst, hsecond]
  | newBlockHeight height => exact ⟨_, UInt64.serialize_of_lt h⟩
  | newConsensusMessage message => exact ConsensusMessage.exists_serialize h
  | getConsentedHeader height => exact ⟨_, UInt64.serialize_of_lt h⟩
  | consentedHeader header consensus validatorSet =>
      rcases Consensus.exists_serialize h.1 with ⟨second, hsecond⟩
      rcases ValidatorSet.exists_serialize h.2 with ⟨third, hthird⟩
      simp [serializeFields, hsecond, hthird]
  | getHeaders start count =>
      simp [serializeFields, UInt64.serialize_of_lt h.1, UInt32.serialize_of_lt h.2]
  | headers headers => exact List.exists_serialize h fun header _ => ⟨header.serialize, rfl⟩
  | getBodies start count =>
      simp [serializeFields, UInt64.serialize_of_lt h.1, UInt32.serialize_of_lt h.2]
  | bodies bodies =>
      exact List.exists_serialize h.1 fun body hbody => BlockBody.exists_serialize (h.2 body hbody)

/-- An encodable message is written, and read back with exactly what follows it left. -/
theorem deserialize_serialize (h : msg.Encodable) (t : Bytes) :
    ∃ bytes, msg.serialize = .ok bytes ∧ deserialize (bytes ++ t) = .ok (msg, t) := by
  have hcode : ∃ code, UInt8.serialize msg.code = .ok code := by
    simp [UInt8.serialize, msg.code_lt]
  rcases hcode with ⟨code, hcode⟩
  rcases exists_serializeFields h with ⟨fields, hfields⟩
  refine ⟨code ++ fields, by simp [serialize, hcode, hfields], ?_⟩
  rw [deserialize, List.append_assoc, UInt8.deserialize_append hcode]
  exact deserializeFields_append hfields t

/-- A proposal of the first block of the sample chain, with two bytes behind it. -/
theorem deserialize_serialize_proposal :
    ∃ bytes,
      serialize (.newConsensusMessage (.proposal
        ⟨⟨1, 1, 0, sampleGenesis⟩, (Consensus.sampleKey 1).sign .transparent Hash.zero⟩)) = .ok bytes ∧
      deserialize (bytes ++ [7, 8]) = .ok (.newConsensusMessage (.proposal
        ⟨⟨1, 1, 0, sampleGenesis⟩, (Consensus.sampleKey 1).sign .transparent Hash.zero⟩), [7, 8]) :=
  deserialize_serialize (by decide) [7, 8]

end Message

end Protocol
end UniqysKit
