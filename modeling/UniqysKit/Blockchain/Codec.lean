import UniqysKit.Blockchain.Block

/-!
# Reading blocks and votes back

The `deserialize` half of `transaction.ts`, `block.ts` and `consensus.ts` in `packages/blockchain`,
and the values that can be written at all.  Each `deserialize` reads exactly the bytes of its value,
so what follows them is left for the next one.
-/

namespace UniqysKit

open Library.BigEndian

/-! ## Votes and certificates -/

namespace Vote

def deserialize : Deserializer Vote := fun reader => do
  let (height, rest) ← UInt64.deserialize reader
  let (round, rest) ← UInt32.deserialize rest
  let (blockHash, rest) ← Hash.deserialize rest
  return (⟨height, round, blockHash⟩, rest)

/-- The numbers are in the range of their writers. -/
def Encodable (v : Vote) : Prop := v.height < 2 ^ 48 ∧ v.round < 2 ^ 32

instance (v : Vote) : Decidable v.Encodable := inferInstanceAs (Decidable (_ ∧ _))

theorem deserialize_append {v : Vote} {bytes : Bytes} (h : v.serialize = .ok bytes) (rest : Bytes) :
    deserialize (bytes ++ rest) = .ok (v, rest) := by
  rcases Result.bind_eq_ok.1 h with ⟨height, hheight, h⟩
  rcases Result.bind_eq_ok.1 h with ⟨round, hround, h⟩
  cases h
  simp [deserialize, UInt64.deserialize_append hheight, UInt32.deserialize_append hround,
    Hash.deserialize_append]

theorem exists_serialize {v : Vote} (h : v.Encodable) : ∃ bytes, v.serialize = .ok bytes := by
  simp [serialize, UInt64.serialize_of_lt h.1, UInt32.serialize_of_lt h.2]

end Vote

namespace ValidatorSet

def serialize (vs : ValidatorSet) : Result Bytes := List.serialize Validator.serialize vs.validators

def deserialize : Deserializer ValidatorSet := fun reader => do
  let (validators, rest) ← List.deserialize Validator.deserialize reader
  return (⟨validators⟩, rest)

def Encodable (vs : ValidatorSet) : Prop :=
  vs.validators.length < 2 ^ 32 ∧ ∀ v ∈ vs.validators, v.power < 2 ^ 48

instance (vs : ValidatorSet) : Decidable vs.Encodable := inferInstanceAs (Decidable (_ ∧ _))

theorem deserialize_append {vs : ValidatorSet} {bytes : Bytes} (h : vs.serialize = .ok bytes)
    (rest : Bytes) : deserialize (bytes ++ rest) = .ok (vs, rest) := by
  have hitem : ∀ v ∈ vs.validators, ∀ bytes rest, v.serialize = .ok bytes →
      Validator.deserialize (bytes ++ rest) = .ok (v, rest) := by
    intro v _ bytes rest hv
    exact Validator.deserialize_append hv rest
  simp [deserialize, List.deserialize_append hitem h]

theorem exists_serialize {vs : ValidatorSet} (h : vs.Encodable) :
    ∃ bytes, vs.serialize = .ok bytes := by
  apply List.exists_serialize h.1
  intro v hv
  simp [Validator.serialize, UInt64.serialize_of_lt (h.2 v hv)]

end ValidatorSet

namespace Consensus

def deserialize : Deserializer Consensus := fun reader => do
  let (vote, rest) ← Vote.deserialize reader
  let (signatures, rest) ← List.deserialize Signature.deserialize rest
  return (⟨vote, signatures⟩, rest)

def Encodable (consensus : Consensus) : Prop :=
  consensus.vote.Encodable ∧ consensus.signatures.length < 2 ^ 32

instance (consensus : Consensus) : Decidable consensus.Encodable :=
  inferInstanceAs (Decidable (_ ∧ _))

theorem deserialize_append {consensus : Consensus} {bytes : Bytes}
    (h : consensus.serialize = .ok bytes) (rest : Bytes) :
    deserialize (bytes ++ rest) = .ok (consensus, rest) := by
  rcases Result.bind_eq_ok.1 h with ⟨vote, hvote, h⟩
  rcases Result.bind_eq_ok.1 h with ⟨signatures, hsignatures, h⟩
  cases h
  have hitem : ∀ s ∈ consensus.signatures, ∀ bytes rest,
      (.ok s.buffer : Result Bytes) = .ok bytes →
        Signature.deserialize (bytes ++ rest) = .ok (s, rest) := by
    rintro s - bytes rest ⟨⟩
    exact Signature.deserialize_append s rest
  simp [deserialize, Vote.deserialize_append hvote, List.deserialize_append hitem hsignatures]

theorem exists_serialize {consensus : Consensus} (h : consensus.Encodable) :
    ∃ bytes, consensus.serialize = .ok bytes := by
  rcases Vote.exists_serialize h.1 with ⟨vote, hvote⟩
  obtain ⟨signatures, hsignatures⟩ : ∃ bytes,
      List.serialize (fun s => .ok (Signature.buffer s)) consensus.signatures = .ok bytes :=
    List.exists_serialize h.2 fun s _ => ⟨s.buffer, rfl⟩
  simp [serialize, hvote, hsignatures]

end Consensus

/-! ## Blocks -/

namespace Transaction

/-- The constructor writes the transaction, and throws where a number does not fit. -/
def deserialize : Deserializer Transaction := fun reader => do
  let (type, rest) ← UInt8.deserialize reader
  let (data, rest) ← SizedBuffer.deserialize rest
  if h : type < 256 ∧ data.length < 2 ^ 32 then return (⟨type, data, h.1, h.2⟩, rest)
  else throw .outOfRange

theorem deserialize_append (tx : Transaction) (rest : Bytes) :
    deserialize (tx.serialize ++ rest) = .ok (tx, rest) := by
  rcases Result.bind_eq_ok.1 tx.writers_eq with ⟨type, htype, h⟩
  rcases Result.bind_eq_ok.1 h with ⟨data, hdata, h⟩
  have hbytes : tx.serialize = type ++ data := (Except.ok.inj h).symm
  have hfits : tx.type < 256 ∧ tx.data.length < 2 ^ 32 := ⟨tx.type_lt, tx.data_lt⟩
  rw [hbytes, List.append_assoc, deserialize, UInt8.deserialize_append htype]
  simp only [Result.ok_bind, SizedBuffer.deserialize_append hdata, dif_pos hfits]
  rfl

end Transaction

namespace TransactionList

def deserialize : Deserializer TransactionList := fun reader => do
  let (transactions, rest) ← List.deserialize Transaction.deserialize reader
  return (⟨transactions⟩, rest)

theorem deserialize_append {list : TransactionList} {bytes : Bytes} (h : list.serialize = .ok bytes)
    (rest : Bytes) : deserialize (bytes ++ rest) = .ok (list, rest) := by
  have hitem : ∀ tx ∈ list.transactions, ∀ bytes rest,
      (.ok tx.serialize : Result Bytes) = .ok bytes →
        Transaction.deserialize (bytes ++ rest) = .ok (tx, rest) := by
    rintro tx - bytes rest ⟨⟩
    exact Transaction.deserialize_append tx rest
  simp [deserialize, List.deserialize_append hitem h]

end TransactionList

namespace BlockHeader

/-- The constructor writes the header, and throws where a number does not fit. -/
def deserialize : Deserializer BlockHeader := fun reader => do
  let (height, rest) ← UInt64.deserialize reader
  let (timestamp, rest) ← UInt64.deserialize rest
  let (lastBlockHash, rest) ← Hash.deserialize rest
  let (transactionRoot, rest) ← Hash.deserialize rest
  let (lastBlockConsensusRoot, rest) ← Hash.deserialize rest
  let (nextValidatorSetRoot, rest) ← Hash.deserialize rest
  let (appStateHash, rest) ← Hash.deserialize rest
  if h : height < 2 ^ 48 ∧ timestamp < 2 ^ 48 then
    return (⟨height, timestamp, lastBlockHash, transactionRoot, lastBlockConsensusRoot,
      nextValidatorSetRoot, appStateHash, height_lt_of_checked h, timestamp_lt_of_checked h⟩, rest)
  else throw ⟨"The number is out of 48bit range"⟩

theorem deserialize_append (header : BlockHeader) (rest : Bytes) :
    deserialize (header.serialize ++ rest) = .ok (header, rest) := by
  have hfits : header.height < 2 ^ 48 ∧ header.timestamp < 2 ^ 48 :=
    ⟨header.height_lt, header.timestamp_lt⟩
  have hheight := UInt64.serialize_of_lt header.height_lt
  have htimestamp := UInt64.serialize_of_lt header.timestamp_lt
  rw [serialize]
  generalize [0, 0] ++ toBytes 6 header.height = height at hheight ⊢
  generalize [0, 0] ++ toBytes 6 header.timestamp = timestamp at htimestamp ⊢
  simp only [List.append_assoc, deserialize, UInt64.deserialize_append hheight,
    UInt64.deserialize_append htimestamp, Hash.deserialize_append, Result.ok_bind, dif_pos hfits]
  rfl

end BlockHeader

namespace BlockBody

def deserialize : Deserializer BlockBody := fun reader => do
  let (transactionList, rest) ← TransactionList.deserialize reader
  let (lastBlockConsensus, rest) ← Consensus.deserialize rest
  return (⟨transactionList, lastBlockConsensus⟩, rest)

def Encodable (body : BlockBody) : Prop :=
  body.transactionList.transactions.length < 2 ^ 32 ∧ body.lastBlockConsensus.Encodable

instance (body : BlockBody) : Decidable body.Encodable := inferInstanceAs (Decidable (_ ∧ _))

theorem deserialize_append {body : BlockBody} {bytes : Bytes} (h : body.serialize = .ok bytes)
    (rest : Bytes) : deserialize (bytes ++ rest) = .ok (body, rest) := by
  rcases Result.bind_eq_ok.1 h with ⟨transactions, htransactions, h⟩
  rcases Result.bind_eq_ok.1 h with ⟨consensus, hconsensus, h⟩
  cases h
  simp [deserialize, TransactionList.deserialize_append htransactions,
    Consensus.deserialize_append hconsensus]

theorem exists_serialize {body : BlockBody} (h : body.Encodable) :
    ∃ bytes, body.serialize = .ok bytes := by
  obtain ⟨transactions, htransactions⟩ : ∃ bytes, body.transactionList.serialize = .ok bytes :=
    List.exists_serialize h.1 fun tx _ => ⟨tx.serialize, rfl⟩
  rcases Consensus.exists_serialize h.2 with ⟨consensus, hconsensus⟩
  simp [serialize, htransactions, hconsensus]

end BlockBody

namespace Block

def deserialize : Deserializer Block := fun reader => do
  let (header, rest) ← BlockHeader.deserialize reader
  let (body, rest) ← BlockBody.deserialize rest
  return (⟨header, body⟩, rest)

theorem deserialize_append {block : Block} {bytes : Bytes} (h : block.serialize = .ok bytes)
    (rest : Bytes) : deserialize (bytes ++ rest) = .ok (block, rest) := by
  rcases Result.bind_eq_ok.1 h with ⟨body, hbody, h⟩
  cases h
  simp [deserialize, BlockHeader.deserialize_append, BlockBody.deserialize_append hbody]

theorem exists_serialize {block : Block} (h : block.body.Encodable) :
    ∃ bytes, block.serialize = .ok bytes := by
  rcases BlockBody.exists_serialize h with ⟨body, hbody⟩
  simp [serialize, hbody]

end Block

/-! ## Consensus messages -/

namespace Proposal

def deserialize : Deserializer Proposal := fun reader => do
  let (height, rest) ← UInt64.deserialize reader
  let (round, rest) ← UInt32.deserialize rest
  let (lockedRound, rest) ← UInt32.deserialize rest
  let (block, rest) ← Block.deserialize rest
  return (⟨height, round, lockedRound, block⟩, rest)

def Encodable (proposal : Proposal) : Prop :=
  proposal.height < 2 ^ 48 ∧ proposal.round < 2 ^ 32 ∧ proposal.lockedRound < 2 ^ 32 ∧
    proposal.block.body.Encodable

instance (proposal : Proposal) : Decidable proposal.Encodable :=
  inferInstanceAs (Decidable (_ ∧ _ ∧ _ ∧ _))

theorem deserialize_append {proposal : Proposal} {bytes : Bytes} (h : proposal.serialize = .ok bytes)
    (rest : Bytes) : deserialize (bytes ++ rest) = .ok (proposal, rest) := by
  rcases Result.bind_eq_ok.1 h with ⟨height, hheight, h⟩
  rcases Result.bind_eq_ok.1 h with ⟨round, hround, h⟩
  rcases Result.bind_eq_ok.1 h with ⟨lockedRound, hlockedRound, h⟩
  rcases Result.bind_eq_ok.1 h with ⟨block, hblock, h⟩
  cases h
  simp [deserialize, UInt64.deserialize_append hheight, UInt32.deserialize_append hround,
    UInt32.deserialize_append hlockedRound, Block.deserialize_append hblock]

theorem exists_serialize {proposal : Proposal} (h : proposal.Encodable) :
    ∃ bytes, proposal.serialize = .ok bytes := by
  rcases h with ⟨hheight, hround, hlockedRound, hbody⟩
  rcases Block.exists_serialize hbody with ⟨block, hblock⟩
  simp [serialize, UInt64.serialize_of_lt hheight, UInt32.serialize_of_lt hround,
    UInt32.serialize_of_lt hlockedRound, hblock]

end Proposal

namespace ConsensusMessage

/-- The label, what it stands for, and its signature. -/
def serialize : ConsensusMessage → Result Bytes
  | .proposal msg => do
      return (← UInt8.serialize 0) ++ (← msg.proposal.serialize) ++ msg.sign.buffer
  | .prevote msg => do
      return (← UInt8.serialize VoteType.prevote.label) ++ (← msg.vote.serialize) ++ msg.sign.buffer
  | .precommit msg => do
      return (← UInt8.serialize VoteType.precommit.label) ++ (← msg.vote.serialize) ++ msg.sign.buffer

def deserialize : Deserializer ConsensusMessage := fun reader => do
  let (label, rest) ← UInt8.deserialize reader
  match label with
  | 0 =>
      let (proposed, rest) ← Proposal.deserialize rest
      let (sign, rest) ← Signature.deserialize rest
      return (.proposal ⟨proposed, sign⟩, rest)
  | 1 =>
      let (vote, rest) ← Vote.deserialize rest
      let (sign, rest) ← Signature.deserialize rest
      return (.prevote ⟨vote, sign⟩, rest)
  | 2 =>
      let (vote, rest) ← Vote.deserialize rest
      let (sign, rest) ← Signature.deserialize rest
      return (.precommit ⟨vote, sign⟩, rest)
  | _ => throw ⟨""⟩

def Encodable : ConsensusMessage → Prop
  | .proposal msg => msg.proposal.Encodable
  | .prevote msg => msg.vote.Encodable
  | .precommit msg => msg.vote.Encodable

instance : (msg : ConsensusMessage) → Decidable msg.Encodable
  | .proposal msg => inferInstanceAs (Decidable msg.proposal.Encodable)
  | .prevote msg => inferInstanceAs (Decidable msg.vote.Encodable)
  | .precommit msg => inferInstanceAs (Decidable msg.vote.Encodable)

theorem deserialize_append {msg : ConsensusMessage} {bytes : Bytes} (h : msg.serialize = .ok bytes)
    (rest : Bytes) : deserialize (bytes ++ rest) = .ok (msg, rest) := by
  cases msg with
  | proposal msg =>
      rcases Result.bind_eq_ok.1 h with ⟨label, hlabel, h⟩
      rcases Result.bind_eq_ok.1 h with ⟨proposal, hproposal, h⟩
      cases h
      simp [deserialize, UInt8.deserialize_append hlabel, Proposal.deserialize_append hproposal,
        Signature.deserialize_append]
  | prevote msg =>
      rcases Result.bind_eq_ok.1 h with ⟨label, hlabel, h⟩
      rcases Result.bind_eq_ok.1 h with ⟨vote, hvote, h⟩
      cases h
      simp [deserialize, UInt8.deserialize_append hlabel, VoteType.label,
        Vote.deserialize_append hvote, Signature.deserialize_append]
  | precommit msg =>
      rcases Result.bind_eq_ok.1 h with ⟨label, hlabel, h⟩
      rcases Result.bind_eq_ok.1 h with ⟨vote, hvote, h⟩
      cases h
      simp [deserialize, UInt8.deserialize_append hlabel, VoteType.label,
        Vote.deserialize_append hvote, Signature.deserialize_append]

theorem exists_serialize {msg : ConsensusMessage} (h : msg.Encodable) :
    ∃ bytes, msg.serialize = .ok bytes := by
  cases msg with
  | proposal msg =>
      rcases Proposal.exists_serialize h with ⟨proposal, hproposal⟩
      simp [serialize, UInt8.serialize, hproposal]
  | prevote msg =>
      rcases Vote.exists_serialize h with ⟨vote, hvote⟩
      simp [serialize, UInt8.serialize, VoteType.label, hvote]
  | precommit msg =>
      rcases Vote.exists_serialize h with ⟨vote, hvote⟩
      simp [serialize, UInt8.serialize, VoteType.label, hvote]

end ConsensusMessage

end UniqysKit
