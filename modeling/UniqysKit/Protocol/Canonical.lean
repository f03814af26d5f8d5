import UniqysKit.EasyFramework.TransactionFormat
import UniqysKit.Protocol.Message

/-!
# Which bytes are read back as they were written

The formats of the messages between nodes and of the data of transactions.  A decoder accepts more
than its encoder writes: the high bytes of a 64-bit number, bytes that are no UTF-8 and whatever
follows the value are not looked at.  `Format.Plain` tells the bytes apart that the encoder writes.
-/

namespace UniqysKit

open Library (Format)

namespace Protocol
namespace Message

/-! ## Messages -/

section Kinds

variable {α β : Type}

/-- A message of one part. -/
def one (f : ByteFormat α) (make : α → Message) (hmake : ∀ {a a'}, make a = make a' → a = a') :
    ByteFormat Message :=
  f.map (fun msg a => msg = make a)
    (by
      rintro msg a a' rfl h
      exact hmake h)
    (by
      rintro msg msg' a rfl rfl
      rfl)

/-- A message of two parts. -/
def two (f : ByteFormat α) (g : ByteFormat β) (make : α → β → Message)
    (hmake : ∀ {a a' b b'}, make a b = make a' b' → a = a' ∧ b = b') : ByteFormat Message :=
  one (f.pair g) (fun p => make p.1 p.2) (by
    rintro ⟨a, b⟩ ⟨a', b'⟩ h
    rcases hmake h with ⟨rfl, rfl⟩
    rfl)

variable {f : ByteFormat α} {g : ByteFormat β} {first : Deserializer α} {second : Deserializer β}
  {b rest : Bytes} {msg : Message}

theorem reads_one {make : α → Message}
    (hf : ∀ b a rest, first b = .ok (a, rest) ↔ f.Reads b a rest) :
    deserializeOne first make b = .ok (msg, rest) ↔ ∃ a, msg = make a ∧ f.Reads b a rest := by
  constructor
  · intro h
    rcases Result.bind_eq_ok.mp h with ⟨⟨a, last⟩, ha, h⟩
    cases h
    exact ⟨a, rfl, (hf _ _ _).mp ha⟩
  · rintro ⟨a, rfl, ha⟩
    exact Result.bind_eq_ok.mpr ⟨_, (hf _ _ _).mpr ha, rfl⟩

theorem reads_two {make : α → β → Message}
    (hf : ∀ b a rest, first b = .ok (a, rest) ↔ f.Reads b a rest)
    (hg : ∀ b a rest, second b = .ok (a, rest) ↔ g.Reads b a rest) :
    deserializeTwo first second make b = .ok (msg, rest) ↔
      ∃ p, msg = make p.1 p.2 ∧ (f.pair g).Reads b p rest := by
  constructor
  · intro h
    rcases Result.bind_eq_ok.mp h with ⟨⟨a, mid⟩, ha, h⟩
    rcases Result.bind_eq_ok.mp h with ⟨⟨a', last⟩, ha', h⟩
    cases h
    exact ⟨(a, a'), rfl, mid, (hf _ _ _).mp ha, (hg _ _ _).mp ha'⟩
  · rintro ⟨p, rfl, mid, ha, ha'⟩
    exact Result.bind_eq_ok.mpr ⟨_, (hf _ _ _).mpr ha, Result.bind_eq_ok.mpr ⟨_, (hg _ _ _).mpr ha', rfl⟩⟩

theorem writes_one {make : α → Message} (hmake : ∀ {a a'}, make a = make a' → a = a') {a : α} :
    f.Writes a b ↔ ∃ a', make a = make a' ∧ f.Writes a' b := by
  constructor
  · intro h
    exact ⟨a, rfl, h⟩
  · rintro ⟨a', heq, h⟩
    rw [hmake heq]
    exact h

theorem writes_two {make : α → β → Message}
    (hmake : ∀ {a a' b b'}, make a b = make a' b' → a = a' ∧ b = b') {a : α} {a' : β}
    {r s : Result Bytes} (hf : ∀ x, r = .ok x ↔ f.Writes a x) (hg : ∀ y, s = .ok y ↔ g.Writes a' y) :
    (do return (← r) ++ (← s) : Result Bytes) = .ok b ↔
      ∃ p : α × β, make a a' = make p.1 p.2 ∧ (f.pair g).Writes p b := by
  constructor
  · intro h
    rcases Result.bind_eq_ok.mp h with ⟨x, hx, h⟩
    rcases Result.bind_eq_ok.mp h with ⟨y, hy, h⟩
    cases h
    exact ⟨(a, a'), rfl, x, y, (hf x).mp hx, (hg y).mp hy, rfl⟩
  · rintro ⟨⟨_, _⟩, heq, x, y, hx, hy, rfl⟩
    rcases hmake heq with ⟨rfl, rfl⟩
    exact Result.bind_eq_ok.mpr ⟨_, (hf x).mpr hx, Result.bind_eq_ok.mpr ⟨_, (hg y).mpr hy, rfl⟩⟩

end Kinds

def headersFormat : ByteFormat (List BlockHeader) :=
  List.format BlockHeader.format BlockHeader.deserialize
    (fun header => .ok (BlockHeader.serialize header)) (fun _ _ _ => Iff.rfl) fun _ _ => Iff.rfl

def bodiesFormat : ByteFormat (List BlockBody) :=
  List.format BlockBody.format BlockBody.deserialize BlockBody.serialize (fun _ _ _ => Iff.rfl)
    fun _ _ => Iff.rfl

/-- What is behind a code. -/
def behind : Nat → ByteFormat Message
  | 0x00 => two UInt64.format Hash.format hello hello.inj
  | 0x10 => one UniqysKit.Transaction.format newTransaction newTransaction.inj
  | 0x11 => two Block.format Consensus.format newBlock newBlock.inj
  | 0x12 => one UInt64.format newBlockHeight newBlockHeight.inj
  | 0x13 => one ConsensusMessage.format newConsensusMessage newConsensusMessage.inj
  | 0x20 => one UInt64.format getConsentedHeader getConsentedHeader.inj
  | 0x30 => one (BlockHeader.format.pair (Consensus.format.pair ValidatorSet.format))
      (fun p => consentedHeader p.1 p.2.1 p.2.2) (by rintro ⟨_, _, _⟩ ⟨_, _, _⟩ ⟨⟩; rfl)
  | 0x21 => two UInt64.format UInt32.format getHeaders getHeaders.inj
  | 0x31 => one headersFormat headers headers.inj
  | 0x22 => two UInt64.format UInt32.format getBodies getBodies.inj
  | 0x32 => one bodiesFormat bodies bodies.inj
  | _ => .impossible

theorem reads_behind {code : Nat} {b rest : Bytes} {msg : Message} :
    deserializeFields code b = .ok (msg, rest) ↔ (behind code).Reads b msg rest := by
  unfold deserializeFields
  split
  · exact reads_two (fun _ _ _ => Iff.rfl) fun _ _ _ => Iff.rfl
  · exact reads_one fun _ _ _ => Iff.rfl
  · exact reads_two (fun _ _ _ => Iff.rfl) fun _ _ _ => Iff.rfl
  · exact reads_one fun _ _ _ => Iff.rfl
  · exact reads_one fun _ _ _ => Iff.rfl
  · exact reads_one fun _ _ _ => Iff.rfl
  · constructor
    · intro h
      -- the one message with three fields
      rcases Result.bind_eq_ok.mp h with ⟨⟨header, mid⟩, hheader, h⟩
      rcases Result.bind_eq_ok.mp h with ⟨⟨consensus, mid'⟩, hconsensus, h⟩
      rcases Result.bind_eq_ok.mp h with ⟨⟨validatorSet, last⟩, hvalidators, h⟩
      cases h
      exact ⟨(_, _, _), rfl, mid, hheader, mid', hconsensus, hvalidators⟩
    · rintro ⟨p, rfl, mid, hheader, mid', hconsensus, hvalidators⟩
      exact Result.bind_eq_ok.mpr ⟨_, hheader, Result.bind_eq_ok.mpr ⟨_, hconsensus,
        Result.bind_eq_ok.mpr ⟨_, hvalidators, rfl⟩⟩⟩
  · exact reads_two (fun _ _ _ => Iff.rfl) fun _ _ _ => Iff.rfl
  · exact reads_one fun _ _ _ => Iff.rfl
  · exact reads_two (fun _ _ _ => Iff.rfl) fun _ _ _ => Iff.rfl
  · exact reads_one fun _ _ _ => Iff.rfl
  · -- no other code is read, under either of the two
    unfold behind
    split
    all_goals first | contradiction | skip
    constructor
    · intro h
      cases h
    · intro h
      exact h.elim

theorem writes_behind {b : Bytes} {msg : Message} :
    msg.serializeFields = .ok b ↔ (behind msg.code).Writes msg b := by
  cases msg with
  | hello height genesis =>
      exact writes_two (s := .ok genesis.serialize) hello.inj (fun _ => Iff.rfl) fun _ => Iff.rfl
  | newTransaction transaction => exact writes_one (f := UniqysKit.Transaction.format) newTransaction.inj
  | newBlock block consensus => exact writes_two newBlock.inj (fun _ => Iff.rfl) fun _ => Iff.rfl
  | newBlockHeight height => exact writes_one (f := UInt64.format) newBlockHeight.inj
  | newConsensusMessage message => exact writes_one (f := ConsensusMessage.format) newConsensusMessage.inj
  | getConsentedHeader height => exact writes_one (f := UInt64.format) getConsentedHeader.inj
  | consentedHeader header consensus validatorSet =>
      -- three fields, of which the first cannot fail
      constructor
      · intro h
        rcases Result.bind_eq_ok.mp h with ⟨x, hx, h⟩
        rcases Result.bind_eq_ok.mp h with ⟨y, hy, h⟩
        cases h
        exact ⟨(_, _, _), rfl, _, _, rfl, ⟨_, _, hx, hy, rfl⟩, List.append_assoc _ _ _⟩
      · rintro ⟨p, hp, _, _, ⟨⟩, ⟨x, y, hx, hy, rfl⟩, rfl⟩
        cases hp
        refine Result.bind_eq_ok.mpr ⟨_, hx, Result.bind_eq_ok.mpr ⟨_, hy, ?_⟩⟩
        exact congrArg Except.ok (List.append_assoc _ _ _)
  | getHeaders start count => exact writes_two getHeaders.inj (fun _ => Iff.rfl) fun _ => Iff.rfl
  | headers headers => exact writes_one (f := headersFormat) Message.headers.inj
  | getBodies start count => exact writes_two getBodies.inj (fun _ => Iff.rfl) fun _ => Iff.rfl
  | bodies bodies => exact writes_one (f := bodiesFormat) Message.bodies.inj

theorem code_behind {n : Nat} {b rest : Bytes} {msg : Message} (h : (behind n).Reads b msg rest) :
    msg.code = n := by
  unfold behind at h
  split at h
  case h_12 => exact h.elim
  all_goals
    rcases h with ⟨_, rfl, -⟩
    rfl

def format : ByteFormat Message :=
  (Format.tagged UInt8.format (fun b => Library.BigEndian.ofBytes (b.take 1)) UInt8.peek code behind
    fun h _ => code_behind h).describe
    (fun b msg rest => deserialize b = .ok (msg, rest)) (fun msg b => msg.serialize = .ok b)
    (by
      intro b msg rest
      constructor
      · intro h
        rcases Result.bind_eq_ok.mp h with ⟨⟨n, mid⟩, hcode, h⟩
        exact ⟨n, mid, hcode, reads_behind.mp h⟩
      · rintro ⟨n, mid, hcode, h⟩
        exact Result.bind_eq_ok.mpr ⟨_, hcode, reads_behind.mpr h⟩)
    (by
      intro msg b
      constructor
      · intro h
        rcases Result.bind_eq_ok.mp h with ⟨x, hx, h⟩
        rcases Result.bind_eq_ok.mp h with ⟨y, hy, h⟩
        cases h
        exact ⟨x, y, hx, writes_behind.mp hy, rfl⟩
      · rintro ⟨x, y, hx, hy, rfl⟩
        exact Result.bind_eq_ok.mpr ⟨_, hx, Result.bind_eq_ok.mpr ⟨_, writes_behind.mpr hy, rfl⟩⟩)

end Message

/-! ## Canonical bytes -/

open EasyFramework (SignedTransaction)

/-- A decoder that stays within its bytes gives a value that is written as the bytes it has consumed
if and only if these are plain: the two high bytes of every 64-bit number are zero and every text is
UTF-8.  What follows them is left alone.  So data that are plain and leave nothing over make one core
transaction of a type for each signed transaction. -/
theorem canonical_iff_plain (c : Crypto) :
    (∀ b msg rest, Message.deserialize b = .ok (msg, rest) → Message.format.asked b ≤ b.length →
      rest = b.drop (Message.format.asked b) ∧
        (msg.serialize = .ok (b.take (Message.format.asked b)) ↔ Message.format.Plain b)) ∧
    (∀ (coreTx : Transaction) tx rest, SignedTransaction.deserialize c coreTx.data = .ok (tx, rest) →
      (SignedTransaction.format c).asked coreTx.data ≤ coreTx.data.length →
        rest = coreTx.data.drop ((SignedTransaction.format c).asked coreTx.data) ∧
          (tx.serialize = .ok (coreTx.data.take ((SignedTransaction.format c).asked coreTx.data)) ↔
            (SignedTransaction.format c).Plain coreTx.data)) ∧
    ∀ (coreTx coreTx' : Transaction) tx, coreTx.type = coreTx'.type →
      SignedTransaction.deserialize c coreTx.data = .ok (tx, []) →
      SignedTransaction.deserialize c coreTx'.data = .ok (tx, []) →
      (SignedTransaction.format c).asked coreTx.data ≤ coreTx.data.length →
      (SignedTransaction.format c).asked coreTx'.data ≤ coreTx'.data.length →
      (SignedTransaction.format c).Plain coreTx.data → (SignedTransaction.format c).Plain coreTx'.data →
        coreTx.hash c = coreTx'.hash c := by
  refine ⟨?_, ?_, ?_⟩
  · intro b msg rest h hasked
    exact ⟨Message.format.rest_eq h, (Message.format.plain_iff h hasked).symm⟩
  · intro coreTx tx rest h hasked
    refine ⟨(SignedTransaction.format c).rest_eq h, ?_⟩
    rw [(SignedTransaction.format c).plain_iff h hasked]
    exact ⟨fun hwritten => ⟨hwritten, SignedTransaction.new_of_deserialize h⟩, And.left⟩
  · intro coreTx coreTx' tx htype h h' hasked hasked' hplain hplain'
    have hdata := SignedTransaction.serialize_of_plain h hasked hplain
    have hdata' := SignedTransaction.serialize_of_plain h' hasked' hplain'
    -- both are written as one transaction is, so the data are equal
    have heq : coreTx.data = coreTx'.data := Except.ok.inj (hdata.symm.trans hdata')
    rw [UniqysKit.Transaction.hash, UniqysKit.Transaction.serialize, htype, heq]
    rfl

/-- A height with its zero bytes, and a byte behind it. -/
def newHeightBytes : Bytes := [0x12, 0, 0, 0, 0, 0, 0, 0, 5, 9]

/-- A core transaction as the node reads it that it was sent to. -/
def relayedCore : Transaction :=
  match Transaction.deserialize EasyFramework.sampleCore.serialize with
  | .ok (tx, _) => tx
  | .error _ => EasyFramework.sampleCore

theorem canonical_iff_plain_sample :
    Message.serialize (.newBlockHeight 5) = .ok (newHeightBytes.take 9) ∧
      (SignedTransaction.format .transparent).Plain EasyFramework.sampleCore.data ∧
      relayedCore.hash .transparent = EasyFramework.sampleCore.hash .transparent := by
  have h := canonical_iff_plain .transparent
  have hplain := ((h.2.1 EasyFramework.sampleCore EasyFramework.sampleSigned [] (by decide +kernel)
    (by decide +kernel)).2).mp (by decide +kernel)
  have hrelayed := ((h.2.1 relayedCore EasyFramework.sampleSigned [] (by decide +kernel)
    (by decide +kernel)).2).mp (by decide +kernel)
  exact ⟨((h.1 newHeightBytes (.newBlockHeight 5) [9] (by decide +kernel) (by decide +kernel)).2).mpr
      ⟨trivial, rfl, trivial⟩,
    hplain, h.2.2 relayedCore EasyFramework.sampleCore EasyFramework.sampleSigned (by decide +kernel)
      (by decide +kernel) (by decide +kernel) (by decide +kernel) (by decide +kernel) hrelayed hplain⟩

/-- A core transaction with a byte behind its signed transaction. -/
def paddedCore : Transaction where
  type := EasyFramework.sampleCore.type
  data := EasyFramework.sampleCore.data ++ [0]
  type_lt := EasyFramework.sampleCore.type_lt
  data_lt := by decide +kernel

/-- A height with a high byte is read as the height, and written without the byte; the data of a
transaction may have another byte at its end, and then its core transaction has another hash. -/
theorem decodes_other_bytes :
    (Message.deserialize [0x12, 1, 0, 0, 0, 0, 0, 0, 5] = .ok (.newBlockHeight 5, []) ∧
      Message.serialize (.newBlockHeight 5) ≠ .ok [0x12, 1, 0, 0, 0, 0, 0, 0, 5]) ∧
    SignedTransaction.deserialize .transparent EasyFramework.sampleCore.data =
      .ok (EasyFramework.sampleSigned, []) ∧
    SignedTransaction.deserialize .transparent paddedCore.data = .ok (EasyFramework.sampleSigned, [0]) ∧
    paddedCore.type = EasyFramework.sampleCore.type ∧
      paddedCore.hash .transparent ≠ EasyFramework.sampleCore.hash .transparent := by
  decide +kernel

end Protocol
end UniqysKit
