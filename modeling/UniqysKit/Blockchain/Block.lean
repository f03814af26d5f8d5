import UniqysKit.Blockchain.Consensus

/-!
# Blocks

`packages/blockchain/src/block.ts` and `transaction.ts`, and the proposal half of `consensus.ts`.

The constructors of `Transaction` and `BlockHeader` serialize their argument to compute `hash` and
throw when a number does not fit, so the bounds are fields here.

A header carries the Merkle root of its transactions and the hash of the certificate of the
previous block.  What these two hashes pin down is the matter of `Commitment`.
-/

namespace UniqysKit

open Library.BigEndian

/-! ## Transactions -/

inductive TransactionType
  | normal
  | event
  deriving DecidableEq, Repr

def TransactionType.toNat : TransactionType → Nat
  | .normal => 0
  | .event => 1

/-- A core transaction.  Its type is the byte the decoder read, of which only `0` and `1` have a
meaning. -/
structure Transaction where
  type : Nat
  data : Bytes
  type_lt : type < 256
  data_lt : data.length < 2 ^ 32
  deriving DecidableEq

/-- The types of normal transactions and of events fit in a byte. -/
theorem Transaction.zero_lt : 0 < 256 := by decide

theorem Transaction.one_lt : 1 < 256 := by decide

namespace Transaction

/-- The bytes `Transaction.serialize` writes: type byte, length, data. -/
def serialize (tx : Transaction) : Bytes :=
  toBytes 1 tx.type ++ (toBytes 4 tx.data.length ++ tx.data)

def hash (c : Crypto) (tx : Transaction) : Hash := Hash.fromData c tx.serialize

/-- The range checks of the writers pass. -/
theorem writers_eq (tx : Transaction) :
    (do return (← UInt8.serialize tx.type) ++ (← SizedBuffer.serialize tx.data)) =
      (.ok tx.serialize : Result Bytes) := by
  simp [UInt8.serialize, SizedBuffer.serialize, UInt32.serialize_of_lt tx.data_lt, tx.type_lt,
    serialize]

theorem length_serialize (tx : Transaction) : tx.serialize.length = tx.data.length + 5 := by
  simp [serialize]
  omega

theorem serialize_injective : Function.Injective serialize := by
  intro tx tx' h
  unfold serialize at h
  rcases List.append_inj h (by simp) with ⟨htype, hrest⟩
  rcases List.append_inj hrest (by simp) with ⟨-, hdata⟩
  have hEq : tx.type = tx'.type :=
    toBytes_inj (by simpa using tx.type_lt) (by simpa using tx'.type_lt) htype
  cases tx
  cases tx'
  simp only at hEq hdata
  subst hEq hdata
  rfl

end Transaction

structure TransactionList where
  transactions : List Transaction
  deriving DecidableEq

namespace TransactionList

def hash (c : Crypto) (list : TransactionList) : Hash :=
  MerkleTree.root c (list.transactions.map (Transaction.hash c))

def serialize (list : TransactionList) : Result Bytes :=
  List.serialize (fun tx => .ok (Transaction.serialize tx)) list.transactions

end TransactionList

/-! ## The hash of a certificate -/

namespace Consensus

def hash (c : Crypto) (consensus : Consensus) : Result Hash := do
  let vote ← consensus.vote.serialize
  return Hash.fromData c ((Hash.fromData c vote).buffer ++
    (MerkleTree.root c (consensus.signatures.map (Signature.hash c))).buffer)

def serialize (consensus : Consensus) : Result Bytes := do
  let vote ← consensus.vote.serialize
  let signatures ← List.serialize (fun s => .ok (Signature.buffer s)) consensus.signatures
  return vote ++ signatures

end Consensus

/-! ## Headers, bodies and blocks -/

structure BlockHeader where
  height : Nat
  timestamp : Nat
  lastBlockHash : Hash
  transactionRoot : Hash
  lastBlockConsensusRoot : Hash
  nextValidatorSetRoot : Hash
  appStateHash : Hash
  height_lt : height < 2 ^ 48
  timestamp_lt : timestamp < 2 ^ 48
  deriving DecidableEq

namespace BlockHeader

def serialize (header : BlockHeader) : Bytes :=
  ([0, 0] ++ toBytes 6 header.height) ++ ([0, 0] ++ toBytes 6 header.timestamp) ++
    header.lastBlockHash.serialize ++ header.transactionRoot.serialize ++
    header.lastBlockConsensusRoot.serialize ++ header.nextValidatorSetRoot.serialize ++
    header.appStateHash.serialize

def hash (c : Crypto) (header : BlockHeader) : Hash := Hash.fromData c header.serialize

theorem height_lt_of_checked {height timestamp : Nat}
    (h : height < 2 ^ 48 ∧ timestamp < 2 ^ 48) : height < 2 ^ 48 := h.1

theorem timestamp_lt_of_checked {height timestamp : Nat}
    (h : height < 2 ^ 48 ∧ timestamp < 2 ^ 48) : timestamp < 2 ^ 48 := h.2

end BlockHeader

structure BlockBody where
  transactionList : TransactionList
  lastBlockConsensus : Consensus
  deriving DecidableEq

namespace BlockBody

def serialize (body : BlockBody) : Result Bytes := do
  return (← body.transactionList.serialize) ++ (← body.lastBlockConsensus.serialize)

def validate (c : Crypto) (body : BlockBody) (header : BlockHeader) : Result Unit := do
  if header.transactionRoot ≠ body.transactionList.hash c then throw ⟨"invalid transactionRoot"⟩
  let consensusRoot ← body.lastBlockConsensus.hash c
  if header.lastBlockConsensusRoot ≠ consensusRoot then throw ⟨"invalid lastBlockConsensusHash"⟩

theorem validate_eq_ok_iff {c : Crypto} {body : BlockBody} {header : BlockHeader} :
    body.validate c header = .ok () ↔
      header.transactionRoot = body.transactionList.hash c ∧
        body.lastBlockConsensus.hash c = .ok header.lastBlockConsensusRoot := by
  unfold validate
  by_cases htx : header.transactionRoot = body.transactionList.hash c
  · cases hc : body.lastBlockConsensus.hash c with
    | error e => simp [htx]
    | ok root =>
        by_cases hroot : header.lastBlockConsensusRoot = root
        · simp [htx, hroot]
        · simp [htx, hroot, Ne.symm hroot]
  · simp [htx]

end BlockBody

structure Block where
  header : BlockHeader
  body : BlockBody
  deriving DecidableEq

namespace Block

def hash (c : Crypto) (block : Block) : Hash := block.header.hash c

def serialize (block : Block) : Result Bytes := do
  return block.header.serialize ++ (← block.body.serialize)

def validate (c : Crypto) (block : Block) : Result Unit := block.body.validate c block.header

/-- `Block.construct`. The constructor of the header throws when a number does not fit. -/
def construct (c : Crypto) (height timestamp : Nat) (lastBlockHash nextValidatorSet appStateHash : Hash)
    (transactions : TransactionList) (lastBlockConsensus : Consensus) : Result Block := do
  let lastBlockConsensusRoot ← lastBlockConsensus.hash c
  if h : height < 2 ^ 48 ∧ timestamp < 2 ^ 48 then
    let header : BlockHeader :=
      ⟨height, timestamp, lastBlockHash, transactions.hash c, lastBlockConsensusRoot,
        nextValidatorSet, appStateHash, BlockHeader.height_lt_of_checked h,
        BlockHeader.timestamp_lt_of_checked h⟩
    return ⟨header, ⟨transactions, lastBlockConsensus⟩⟩
  else throw ⟨"The number is out of 48bit range"⟩

end Block

/-! ## Proposals -/

structure Proposal where
  height : Nat
  round : Nat
  lockedRound : Nat
  block : Block
  deriving DecidableEq

namespace Proposal

def serialize (proposal : Proposal) : Result Bytes := do
  return (← UInt64.serialize proposal.height) ++ (← UInt32.serialize proposal.round) ++
    (← UInt32.serialize proposal.lockedRound) ++ (← proposal.block.serialize)

end Proposal

structure ProposalMessage where
  proposal : Proposal
  sign : Signature
  deriving DecidableEq

namespace ProposalMessage

/-- Genesis hash, label byte `MessageType.Proposal`, proposal. -/
def digest (c : Crypto) (proposal : Proposal) (genesis : Hash) : Result Hash := do
  return Hash.fromData c (genesis.serialize ++ (← UInt8.serialize 0) ++ (← proposal.serialize))

def signerAddress (c : Crypto) (msg : ProposalMessage) (genesis : Hash) : Result Address := do
  signerOf c msg.sign (← digest c msg.proposal genesis)

end ProposalMessage

inductive ConsensusMessage
  | proposal (msg : ProposalMessage)
  | prevote (msg : PrevoteMessage)
  | precommit (msg : PrecommitMessage)
  deriving DecidableEq

namespace ConsensusMessage

/-- `ConsensusMessage.proposal`: sign a proposal. -/
def signProposal (c : Crypto) (proposal : Proposal) (genesis : Hash) (signer : KeyPair) :
    Result ProposalMessage := do
  return ⟨proposal, signer.sign c (← ProposalMessage.digest c proposal genesis)⟩

/-- `ConsensusMessage.prevote` and `ConsensusMessage.precommit`: sign a vote. -/
def signVote (c : Crypto) (type : VoteType) (vote : Vote) (genesis : Hash) (signer : KeyPair) :
    Result (VoteMessage type) := do
  return ⟨vote, signer.sign c (← VoteMessage.digest c type vote genesis)⟩

/-- A signed vote carries the given vote and is attributed to the signer. -/
theorem signVote_eq_ok {c : Crypto} {type : VoteType} {vote : Vote} {genesis : Hash}
    {signer : KeyPair} {msg : VoteMessage type}
    (h : signVote c type vote genesis signer = .ok msg) :
    msg.vote = vote ∧ msg.signerAddress c genesis = .ok (signer.address c) := by
  rcases Result.bind_eq_ok.1 h with ⟨digest, hdigest, hmsg⟩
  cases hmsg
  refine ⟨rfl, ?_⟩
  simp [VoteMessage.signerAddress, hdigest, signerOf]

/-- A vote can be signed if its numbers can be serialized. -/
theorem signVote_isOk_iff {c : Crypto} {type : VoteType} {vote : Vote} {genesis : Hash}
    {signer : KeyPair} :
    (∃ msg, signVote c type vote genesis signer = .ok msg) ↔
      vote.height < 2 ^ 48 ∧ vote.round < 2 ^ 32 := by
  have hlabel : ∃ label, UInt8.serialize type.label = .ok label := by
    cases type with
    | prevote => exact ⟨_, rfl⟩
    | precommit => exact ⟨_, rfl⟩
  constructor
  · rintro ⟨msg, hmsg⟩
    simp only [signVote, VoteMessage.digest, Vote.serialize, Result.bind_eq_ok] at hmsg
    rcases hmsg with ⟨_, ⟨_, _, _, ⟨_, hheight, _, hround, _⟩, _⟩, _⟩
    exact ⟨(UInt64.serialize_ok hheight).1, UInt32.lt_of_serialize hround⟩
  · rintro ⟨hheight, hround⟩
    rcases hlabel with ⟨label, hlabel⟩
    simp [signVote, VoteMessage.digest, Vote.serialize, hlabel, UInt64.serialize_of_lt hheight,
      UInt32.serialize_of_lt hround]

end ConsensusMessage

/-! ## What an application reports -/

/-- `AppState` of `packages/dapp-interface`. -/
structure AppState where
  height : Nat
  hash : Hash
  nextValidatorSet : ValidatorSet
  eventTransactionRoot : Hash
  deriving DecidableEq

/-! ## A sample chain -/

/-- The numbers of the sample headers fit. -/
theorem BlockHeader.zero_lt : 0 < 2 ^ 48 := by decide

theorem BlockHeader.one_lt : 1 < 2 ^ 48 := by decide

theorem BlockHeader.two_lt : 2 < 2 ^ 48 := by decide

theorem BlockHeader.seven_lt : 7 < 2 ^ 48 := by decide

/-- One validator. -/
def soleValidatorSet : ValidatorSet := ⟨[⟨(Consensus.sampleKey 1).address .transparent, 10⟩]⟩

/-- The first block of a chain with that validator. -/
def sampleGenesis : Block where
  header :=
    ⟨1, 0, Hash.zero, TransactionList.hash .transparent ⟨[]⟩,
      ((Consensus.hash .transparent ⟨⟨0, 1, Hash.zero⟩, []⟩).toOption).getD Hash.zero,
      ((soleValidatorSet.hash .transparent).toOption).getD Hash.zero, Hash.zero,
      BlockHeader.one_lt, BlockHeader.zero_lt⟩
  body := ⟨⟨[]⟩, ⟨⟨0, 1, Hash.zero⟩, []⟩⟩

/-- The certificate of one signer for a block of the sample chain. -/
def sampleCertificate (signer : KeyPair) (header : BlockHeader) : Consensus :=
  let vote : Vote := ⟨header.height, 1, header.hash .transparent⟩
  match ConsensusMessage.signVote .transparent .precommit vote (sampleGenesis.hash .transparent)
      signer with
  | .ok msg => ⟨vote, [msg.sign]⟩
  | .error _ => ⟨vote, []⟩

end UniqysKit
