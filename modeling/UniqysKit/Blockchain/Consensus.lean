import Mathlib.Algebra.BigOperators.Group.Finset.Basic
import Mathlib.Data.Finset.Dedup
import UniqysKit.Blockchain.MerkleTree
import UniqysKit.Library.LastEntry
import UniqysKit.Library.WholeDoubles

/-!
# Validators, votes and quorum certificates

The voting half of `packages/blockchain/src/consensus.ts`: validator sets with their power table,
votes with the digest a validator signs, and `Consensus`, the certificate of a block.

Powers are whole numbers, as the decoder reads them; they are added and compared as doubles, which
is exact up to `2 ^ 53`.

`Consensus.validate` adds up the power of every signature in the list.  `validate_eq_ok_iff` says
what it accepts; the rest of the module compares that with the power of the distinct signers.
-/

namespace UniqysKit

open Library

/-! ## Validator sets -/

structure Validator where
  address : Address
  power : Nat
  deriving DecidableEq

namespace Validator

def serialize (v : Validator) : Result Bytes := do
  return v.address.buffer ++ (← UInt64.serialize v.power)

def deserialize : Deserializer Validator := fun reader => do
  let (address, rest) ← Address.deserialize reader
  let (power, rest) ← UInt64.deserialize rest
  return (⟨address, power⟩, rest)

def hash (c : Crypto) (v : Validator) : Result Hash := do
  return Hash.fromData c (← v.serialize)

theorem deserialize_append {v : Validator} {bytes : Bytes} (h : v.serialize = .ok bytes)
    (rest : Bytes) : deserialize (bytes ++ rest) = .ok (v, rest) := by
  rcases Result.bind_eq_ok.1 h with ⟨power, hpower, hbytes⟩
  cases hbytes
  rw [deserialize, List.append_assoc, Address.deserialize_append]
  simp [UInt64.deserialize_append hpower]

theorem length_serialize {v : Validator} {bytes : Bytes} (h : v.serialize = .ok bytes) :
    bytes.length = 28 := by
  rcases Result.bind_eq_ok.1 h with ⟨power, hpower, hbytes⟩
  cases hbytes
  rcases UInt64.serialize_ok hpower with ⟨-, rfl⟩
  simp [v.address.size]

end Validator

structure ValidatorSet where
  validators : List Validator
  deriving DecidableEq

namespace ValidatorSet

variable (vs : ValidatorSet)

/-- The `power` map of the constructor: of several entries for an address the last one stays. -/
def power (address : Address) : Option Nat :=
  (vs.validators.reverse.find? (fun v => v.address = address)).map Validator.power

/-- The `sum` loop of the constructor. -/
def totalPower : Nat := vs.validators.foldl (fun sum v => Doubles.add sum v.power) 0

/-- The powers added up without rounding. -/
def powerSum : Nat := (vs.validators.map Validator.power).sum

/-- `ValidatorSet.exists`. -/
def existsAddress (address : Address) : Bool := (vs.power address).isSome

/-- `powerOf`; a power of zero is falsy and throws like a missing entry. -/
def powerOf (address : Address) : Result Nat :=
  match vs.power address with
  | some (p + 1) => .ok (p + 1)
  | _ => .error ⟨"not included in the validator set"⟩

/-- Naive round robin.  Indexing an empty list of validators throws a `TypeError`. -/
def proposer (height round : Nat) : Result Address :=
  match vs.validators[(height + round) % vs.validators.length]? with
  | some v => .ok v.address
  | none => .error .typeError

def hash (c : Crypto) : Result Hash := do
  return MerkleTree.root c (← vs.validators.mapM (Validator.hash c))

/-- The power an address can bring to a vote: zero where `powerOf` throws. -/
def weight (address : Address) : Nat :=
  match vs.powerOf address with
  | .ok p => p
  | .error _ => 0

theorem totalPower_eq_sum : vs.totalPower = Doubles.sum (vs.validators.map Validator.power) := by
  rw [totalPower, Doubles.sum, List.foldl_map]

variable {vs}

/-- A total up to `2 ^ 53` is exact. -/
theorem totalPower_of_le (h : vs.powerSum ≤ 2 ^ 53) : vs.totalPower = vs.powerSum := by
  rw [totalPower_eq_sum]
  exact Doubles.sum_of_le h

theorem powerOf_eq_ok_iff {address : Address} {p : Nat} :
    vs.powerOf address = .ok p ↔ vs.power address = some p ∧ 0 < p := by
  unfold powerOf
  split
  · rename_i q hq
    rw [hq]
    constructor
    · intro h
      cases h
      exact ⟨rfl, Nat.succ_pos _⟩
    · rintro ⟨h, -⟩
      cases h
      rfl
  · rename_i hnone
    constructor
    · intro h
      cases h
    · rintro ⟨h, hp⟩
      rcases Nat.exists_eq_succ_of_ne_zero (Nat.pos_iff_ne_zero.1 hp) with ⟨q, rfl⟩
      exact absurd h (hnone q)

theorem weight_of_powerOf {address : Address} {p : Nat} (h : vs.powerOf address = .ok p) :
    vs.weight address = p := by
  simp [weight, h]

/-- More than two thirds of the powers, held by a set of members. -/
def Quorum (vs : ValidatorSet) (members : Finset Address) : Prop :=
  (∀ address ∈ members, vs.existsAddress address = true) ∧
    vs.powerSum * 2 < (∑ address ∈ members, vs.weight address) * 3

/-- More than two thirds of the total power, as `validate` and `VoteSet.add` compare it. -/
def Passes (vs : ValidatorSet) (power : Nat) : Prop :=
  Doubles.mul power 3 > Doubles.mul vs.totalPower 2

instance (vs : ValidatorSet) (members : Finset Address) : Decidable (vs.Quorum members) :=
  inferInstanceAs (Decidable (_ ∧ _))

/-- The addresses with positive weight are those on which `powerOf` does not throw. -/
theorem weight_pos_iff {address : Address} :
    0 < vs.weight address ↔ vs.powerOf address = .ok (vs.weight address) := by
  unfold weight
  cases h : vs.powerOf address with
  | error e => simp
  | ok p => simpa using (powerOf_eq_ok_iff.1 h).2

theorem existsAddress_of_weight_pos {address : Address} (h : 0 < vs.weight address) :
    vs.existsAddress address = true := by
  have hp := (powerOf_eq_ok_iff.1 (weight_pos_iff.1 h)).1
  simp [existsAddress, hp]

/-! ### The table and the sum -/

/-- The validators as entries of the table. -/
def entries (vs : ValidatorSet) : List (Address × Nat) := vs.validators.map fun v => (v.address, v.power)

theorem power_eq_lastEntry (address : Address) : vs.power address = lastEntry vs.entries address := by
  rw [power, entries, lastEntry_eq_find, ← List.map_reverse, List.find?_map, Option.map_map]
  rfl

theorem map_snd_entries (vs : ValidatorSet) :
    vs.entries.map Prod.snd = vs.validators.map Validator.power := by
  rw [entries, List.map_map]
  rfl

theorem weight_eq (address : Address) :
    vs.weight address = (lastEntry vs.entries address).getD 0 := by
  rw [← power_eq_lastEntry, weight, powerOf]
  rcases vs.power address with _ | _ | p
  · rfl
  · rfl
  · rfl

/-- No set of addresses has more than all powers. -/
theorem sum_weight_le (vs : ValidatorSet) (members : Finset Address) :
    ∑ address ∈ members, vs.weight address ≤ vs.powerSum := by
  simp only [weight_eq]
  rw [powerSum, ← map_snd_entries]
  exact sum_lastEntry_le (fun _ _ => Nat.zero_le _) members

/-- Addresses that are not repeated have no more than all powers. -/
theorem sum_map_weight_le (vs : ValidatorSet) {addresses : List Address}
    (hnodup : addresses.Nodup) :
    (addresses.map vs.weight).sum ≤ vs.powerSum := by
  rw [← List.sum_toFinset _ hnodup]
  exact vs.sum_weight_le addresses.toFinset

/-- Of addresses that are not repeated the powers are added exactly, where all of them would be. -/
theorem doublesSum_eq (hsum : vs.powerSum ≤ 2 ^ 53) {addresses : List Address}
    (hnodup : addresses.Nodup) :
    Doubles.sum (addresses.map vs.weight) = ∑ address ∈ addresses.toFinset, vs.weight address := by
  rw [Doubles.sum_of_le ((vs.sum_map_weight_le hnodup).trans hsum), List.sum_toFinset _ hnodup]

theorem Passes.mono {power power' : Nat} (h : vs.Passes power) (hle : power ≤ power') :
    vs.Passes power' :=
  lt_of_lt_of_le h (Doubles.round_mono (Nat.mul_le_mul_right 3 hle))

/-- The comparison is exact where no sum is rounded, and a rounded product does not pass wrongly. -/
theorem lt_of_passes (hsum : vs.powerSum ≤ 2 ^ 53) {power : Nat} (h : vs.Passes power) :
    vs.powerSum * 2 < power * 3 := by
  rw [Passes, totalPower_of_le hsum] at h
  exact Doubles.lt_of_round_lt h

variable (vs) in
/-- Rounding makes no majority: distinct addresses whose powers pass, added up in any order, hold
more than two thirds of all powers. -/
def ExactMajorities : Prop :=
  ∀ addresses : List Address, addresses.Nodup → vs.Passes (Doubles.sum (addresses.map vs.weight)) →
    vs.powerSum * 2 < (∑ address ∈ addresses.toFinset, vs.weight address) * 3

theorem exactMajorities_of_le (hsum : vs.powerSum ≤ 2 ^ 53) : vs.ExactMajorities := by
  intro addresses hnodup hpasses
  rw [doublesSum_eq hsum hnodup] at hpasses
  exact lt_of_passes hsum hpasses

/-- Below `2 ^ 52` the comparison is exact in both directions. -/
theorem passes_iff (hsum : vs.powerSum < 2 ^ 52) {power : Nat} :
    vs.Passes power ↔ vs.powerSum * 2 < power * 3 := by
  rw [Passes, totalPower_of_le (by omega)]
  exact Doubles.round_lt_iff (by omega)

/-- The total may have been rounded, and so may the other sum, if that has not made it more, or if it is
far above two thirds. -/
theorem lt_of_passes_sum {powers : List Nat}
    (hexact : Doubles.sum powers ≤ powers.sum ∨ vs.totalPower ≤ 3 * 2 ^ 52)
    (h : vs.Passes (Doubles.sum powers)) : vs.totalPower * 2 < powers.sum * 3 := by
  have hpasses : vs.totalPower * 2 < Doubles.sum powers * 3 := Doubles.lt_of_round_lt h
  by_cases hle : powers.sum ≤ 2 ^ 53
  · rw [Doubles.sum_of_le hle] at hpasses
    exact hpasses
  · rcases hexact with hsum | htotal
    · omega
    · omega

/-- The comparison with a third of the total power. -/
theorem oneThird_iff (hsum : vs.powerSum < 2 ^ 52) {power : Nat} :
    Doubles.mul power 3 > vs.totalPower ↔ vs.powerSum < power * 3 := by
  rw [totalPower_of_le (by omega)]
  have hround : Doubles.round vs.powerSum = vs.powerSum := Doubles.round_of_lt (by omega)
  have hiff := Doubles.round_lt_iff (m := vs.powerSum) (n := power * 3) (by omega)
  rwa [hround] at hiff

end ValidatorSet

/-! ## Votes -/

structure Vote where
  height : Nat
  round : Nat
  blockHash : Hash
  deriving DecidableEq

namespace Vote

def serialize (v : Vote) : Result Bytes := do
  return (← UInt64.serialize v.height) ++ (← UInt32.serialize v.round) ++ v.blockHash.serialize

end Vote

/-- The two kinds of vote, with the label byte of `MessageType`. -/
inductive VoteType
  | prevote
  | precommit
  deriving DecidableEq, Repr

def VoteType.label : VoteType → Nat
  | .prevote => 1
  | .precommit => 2

/-- A signed vote: `PrevoteMessage` or `PrecommitMessage`, according to its type. -/
structure VoteMessage (type : VoteType) where
  vote : Vote
  sign : Signature
  deriving DecidableEq

abbrev PrevoteMessage := VoteMessage .prevote

abbrev PrecommitMessage := VoteMessage .precommit

/-- The address recovered from a signature on a digest, or the error `Signature.recover` throws. -/
def signerOf (c : Crypto) (sign : Signature) (digest : Hash) : Result Address :=
  match sign.address c digest with
  | some address => .ok address
  | none => .error ⟨"couldn't recover public key from signature"⟩

namespace VoteMessage

/-- `PrevoteMessage.digest` and `PrecommitMessage.digest`: genesis hash, label byte, vote. -/
def digest (c : Crypto) (type : VoteType) (vote : Vote) (genesis : Hash) : Result Hash := do
  return Hash.fromData c
    (genesis.serialize ++ (← UInt8.serialize type.label) ++ (← vote.serialize))

def signerAddress (c : Crypto) {type : VoteType} (msg : VoteMessage type) (genesis : Hash) :
    Result Address := do
  signerOf c msg.sign (← digest c type msg.vote genesis)

end VoteMessage

/-! ## Certificates -/

structure Consensus where
  vote : Vote
  signatures : List Signature
  deriving DecidableEq

namespace Consensus

section Validate

variable (c : Crypto) (consensus : Consensus)

/-- Whom `validate` attributes one of the signatures to. -/
def signer (genesisHash : Hash) (sign : Signature) : Result Address :=
  (⟨consensus.vote, sign⟩ : PrecommitMessage).signerAddress c genesisHash

/-- The body of the loop of `validate`. -/
def addPower (genesisHash : Hash) (vs : ValidatorSet) (power : Nat) (sign : Signature) :
    Result Nat := do
  let address ← consensus.signer c genesisHash sign
  if ¬ vs.existsAddress address then throw ⟨"not exists in validator set"⟩
  return Doubles.add power (← vs.powerOf address)

def validate (blockHash genesisHash : Hash) (vs : ValidatorSet) : Result Unit := do
  if consensus.vote.blockHash ≠ blockHash then throw ⟨"block hash mismatch"⟩
  let power ← consensus.signatures.foldlM (consensus.addPower c genesisHash vs) 0
  if ¬ (Doubles.mul power 3 > Doubles.mul vs.totalPower 2) then
    throw ⟨"signatures power is not greater than 2/3 validator set power"⟩

/-- The addresses recovered from the signatures, in the order of the list. -/
def signers (genesisHash : Hash) : List Address :=
  consensus.signatures.filterMap (fun sign => (consensus.signer c genesisHash sign).toOption)

end Validate

variable {c : Crypto} {consensus : Consensus} {genesisHash blockHash : Hash} {vs : ValidatorSet}

/-- One turn of the loop goes on exactly for a signature of an address with power. -/
theorem addPower_eq_ok_iff {power power' : Nat} {sign : Signature} :
    consensus.addPower c genesisHash vs power sign = .ok power' ↔
      ∃ address, consensus.signer c genesisHash sign = .ok address ∧ 0 < vs.weight address ∧
        power' = Doubles.add power (vs.weight address) := by
  cases hs : consensus.signer c genesisHash sign with
  | error e =>
      simp [addPower, hs]
  | ok address =>
      cases hp : vs.powerOf address with
      | error e =>
          have hw : vs.weight address = 0 := by simp [ValidatorSet.weight, hp]
          -- an unknown address is refused, and a known one has no power to look up
          by_cases he : vs.existsAddress address = true
          · simp [addPower, hs, hp, he, hw]
          · simp [addPower, hs, he, hw]
      | ok p =>
          have hw := ValidatorSet.weight_of_powerOf hp
          have hpos : 0 < vs.weight address := by
            rw [hw]
            exact (ValidatorSet.powerOf_eq_ok_iff.1 hp).2
          have he := ValidatorSet.existsAddress_of_weight_pos hpos
          have hgo : consensus.addPower c genesisHash vs power sign =
              .ok (Doubles.add power p) := by
            simp [addPower, hs, hp, he]
          rw [hgo]
          constructor
          · intro h
            cases h
            exact ⟨address, rfl, hpos, by rw [hw]⟩
          · rintro ⟨_, ha, -, rfl⟩
            cases ha
            rw [hw]

/-- What the loop of `validate` computes: every signature must come from an address with power, and
each one adds that power, repeated or not. -/
theorem foldlM_addPower_eq_ok_iff (signatures : List Signature) (power power' : Nat) :
    signatures.foldlM (consensus.addPower c genesisHash vs) power = .ok power' ↔
      (∀ sign ∈ signatures, ∃ address,
        consensus.signer c genesisHash sign = .ok address ∧ 0 < vs.weight address) ∧
      power' = ((signatures.filterMap
        (fun sign => (consensus.signer c genesisHash sign).toOption)).map vs.weight).foldl
          Doubles.add power := by
  induction signatures generalizing power with
  | nil =>
      simp [eq_comm]
  | cons sign rest ih =>
      rw [List.foldlM_cons]
      cases hstep : consensus.addPower c genesisHash vs power sign with
      | error e =>
          -- the loop ends at this signature, whose address is unknown or without power
          have hnone : ¬ ∃ address, consensus.signer c genesisHash sign = .ok address ∧
              0 < vs.weight address := by
            rintro ⟨address, hs, hw⟩
            rw [addPower_eq_ok_iff.2 ⟨address, hs, hw, rfl⟩] at hstep
            cases hstep
          simp [hnone]
      | ok next =>
          rcases addPower_eq_ok_iff.1 hstep with ⟨address, hs, hw, rfl⟩
          simp only [Result.ok_bind, ih]
          simp [hs, hw, Except.toOption]

/-- What `validate` accepts. -/
theorem validate_eq_ok_iff :
    consensus.validate c blockHash genesisHash vs = .ok () ↔
      consensus.vote.blockHash = blockHash ∧
      (∀ sign ∈ consensus.signatures, ∃ address,
        consensus.signer c genesisHash sign = .ok address ∧ 0 < vs.weight address) ∧
      vs.Passes (Doubles.sum ((consensus.signers c genesisHash).map vs.weight)) := by
  unfold ValidatorSet.Passes
  by_cases hhash : consensus.vote.blockHash = blockHash
  · have hloop := @foldlM_addPower_eq_ok_iff c consensus genesisHash vs consensus.signatures 0
    cases hfold : consensus.signatures.foldlM (consensus.addPower c genesisHash vs) 0 with
    | error e =>
        have hnot : ¬ ∀ sign ∈ consensus.signatures, ∃ address,
            consensus.signer c genesisHash sign = .ok address ∧ 0 < vs.weight address := by
          intro hall
          rw [(hloop _).2 ⟨hall, rfl⟩] at hfold
          cases hfold
        simp [validate, hhash, hfold, hnot]
    | ok power =>
        rcases (hloop power).1 hfold with ⟨hall, hpower⟩
        change power = Doubles.sum ((consensus.signers c genesisHash).map vs.weight) at hpower
        rw [← hpower]
        by_cases hq : Doubles.mul power 3 > Doubles.mul vs.totalPower 2
        · simpa [validate, hhash, hfold, hq] using hall
        · simp [validate, hhash, hfold, hq]
  · simp [validate, hhash]

/-! ## Distinct signers -/

/-- Everyone `validate` counted belongs to the validator set. -/
theorem existsAddress_of_validate (h : consensus.validate c blockHash genesisHash vs = .ok ())
    {address : Address} (ha : address ∈ consensus.signers c genesisHash) :
    vs.existsAddress address = true := by
  rcases validate_eq_ok_iff.1 h with ⟨-, hall, -⟩
  rcases List.mem_filterMap.1 ha with ⟨sign, hsign, hopt⟩
  rcases hall sign hsign with ⟨address', hs, hw⟩
  rw [hs] at hopt
  cases hopt
  exact ValidatorSet.existsAddress_of_weight_pos hw

/-- A certificate without repeated signers is counted correctly, where no sum is rounded. -/
theorem quorum_of_validate (hsum : vs.powerSum ≤ 2 ^ 53)
    (hnodup : (consensus.signers c genesisHash).Nodup)
    (h : consensus.validate c blockHash genesisHash vs = .ok ()) :
    vs.Quorum (consensus.signers c genesisHash).toFinset := by
  refine ⟨fun address ha => existsAddress_of_validate h (List.mem_toFinset.1 ha), ?_⟩
  exact ValidatorSet.exactMajorities_of_le hsum _ hnodup (validate_eq_ok_iff.1 h).2.2

/-! ### Repeated signers -/

/-- The number as an address. -/
def numberedAddress (n : Nat) : Address := ⟨BigEndian.toBytes 20 n, BigEndian.length_toBytes 20 n⟩

theorem numberedAddress_inj {m n : Nat} (hm : m < 256 ^ 20) (hn : n < 256 ^ 20)
    (h : numberedAddress m = numberedAddress n) : m = n :=
  BigEndian.toBytes_inj hm hn (Address.mk.inj h)

/-- There are more addresses than a list of signatures can have. -/
theorem exists_address_not_mem {addresses : List Address} (h : addresses.length < 2 ^ 128) :
    ∃ address, address ∉ addresses := by
  have hinj : Set.InjOn numberedAddress (Finset.range (addresses.length + 1)) := by
    intro m hm n hn heq
    have hm' := Finset.mem_range.mp (Finset.mem_coe.mp hm)
    have hn' := Finset.mem_range.mp (Finset.mem_coe.mp hn)
    exact numberedAddress_inj (by omega) (by omega) heq
  have hcard : addresses.toFinset.card <
      ((Finset.range (addresses.length + 1)).image numberedAddress).card := by
    rw [Finset.card_image_of_injOn hinj, Finset.card_range]
    exact Nat.lt_succ_of_le (List.toFinset_card_le addresses)
  rcases Finset.exists_mem_notMem_of_card_lt_card hcard with ⟨address, -, hnew⟩
  exact ⟨address, fun hmem => hnew (List.mem_toFinset.mpr hmem)⟩

/-- The members have one vote each, and an outsider has half as many as they have together. -/
def oneVoteEach (members : List Address) (outsider : Address) : ValidatorSet :=
  ⟨members.map (fun address => ⟨address, 1⟩) ++ [⟨outsider, (members.length + 1) / 2⟩]⟩

section OneVoteEach

variable {members : List Address} {outsider : Address}

theorem powerSum_oneVoteEach :
    (oneVoteEach members outsider).powerSum = members.length + (members.length + 1) / 2 := by
  have hones : (members.map (fun address => (⟨address, 1⟩ : Validator))).map Validator.power =
      List.replicate members.length 1 := by
    rw [List.map_map, List.map_eq_replicate_iff]
    exact fun _ _ => rfl
  rw [ValidatorSet.powerSum, oneVoteEach, List.map_append, List.sum_append, hones]
  simp

theorem nodup_oneVoteEach (hnodup : members.Nodup) (houtsider : outsider ∉ members) :
    ((oneVoteEach members outsider).validators.map Validator.address).Nodup := by
  have hmap : (oneVoteEach members outsider).validators.map Validator.address =
      members ++ [outsider] := by
    simp [oneVoteEach, Function.comp_def]
  rw [hmap, List.nodup_append']
  exact ⟨hnodup, List.nodup_singleton _, List.disjoint_singleton.mpr houtsider⟩

theorem weight_oneVoteEach (hnodup : members.Nodup) (houtsider : outsider ∉ members)
    {address : Address} (h : address ∈ members) :
    (oneVoteEach members outsider).weight address = 1 := by
  have hmem : (address, 1) ∈ (oneVoteEach members outsider).entries := by
    simp [ValidatorSet.entries, oneVoteEach, h]
  have hkeys : ((oneVoteEach members outsider).entries.map Prod.fst).Nodup := by
    rw [ValidatorSet.entries, List.map_map]
    exact nodup_oneVoteEach hnodup houtsider
  rw [ValidatorSet.weight_eq, lastEntry_of_mem hkeys hmem, Option.getD_some]

end OneVoteEach

/-- If somebody has signed twice, there are validators whose set accepts the certificate without a
quorum. -/
theorem exists_accepts_repeated (hlen : consensus.signatures.length < 2 ^ 32)
    (hall : ∀ sign ∈ consensus.signatures, ∃ address,
      consensus.signer c genesisHash sign = .ok address)
    (hrepeated : ¬ (consensus.signers c genesisHash).Nodup) :
    ∃ vs : ValidatorSet, (vs.validators.map Validator.address).Nodup ∧ vs.powerSum ≤ 2 ^ 53 ∧
      consensus.validate c consensus.vote.blockHash genesisHash vs = .ok () ∧
      ¬ vs.Quorum (consensus.signers c genesisHash).toFinset := by
  let signers := consensus.signers c genesisHash
  let members := signers.dedup
  have hnodup : members.Nodup := List.nodup_dedup signers
  have hlength : signers.length ≤ consensus.signatures.length := List.length_filterMap_le _ _
  have hless : members.length < signers.length := by
    refine lt_of_le_of_ne (List.dedup_sublist signers).length_le ?_
    intro heq
    refine hrepeated ?_
    have hsame : members = consensus.signers c genesisHash :=
      (List.dedup_sublist signers).eq_of_length heq
    rw [← hsame]
    exact hnodup
  rcases @exists_address_not_mem members (by omega) with ⟨outsider, houtsider⟩
  have hweight : ∀ address ∈ signers, (oneVoteEach members outsider).weight address = 1 :=
    fun address h => weight_oneVoteEach hnodup houtsider (List.mem_dedup.mpr h)
  have hsum := @powerSum_oneVoteEach members outsider
  refine ⟨oneVoteEach members outsider, nodup_oneVoteEach hnodup houtsider, by omega, ?_, ?_⟩
  · refine validate_eq_ok_iff.mpr ⟨rfl, ?_, ?_⟩
    · intro sign hsign
      rcases hall sign hsign with ⟨address, haddress⟩
      refine ⟨address, haddress, ?_⟩
      rw [hweight address (List.mem_filterMap.mpr ⟨sign, hsign, by rw [haddress]; rfl⟩)]
      exact Nat.one_pos
    · -- each signature adds one, and there are more of them than members
      have hones : signers.map (oneVoteEach members outsider).weight =
          List.replicate signers.length 1 := List.map_eq_replicate_iff.mpr hweight
      have hcount : (List.replicate signers.length 1).sum = signers.length := by simp
      rw [ValidatorSet.passes_iff (by omega), hones, Doubles.sum_of_le (by omega), hcount]
      omega
  · rintro ⟨-, hquorum⟩
    have hsame : signers.toFinset = members.toFinset := by
      ext address
      rw [List.mem_toFinset, List.mem_toFinset, List.mem_dedup]
    have hcount : ∑ address ∈ signers.toFinset, (oneVoteEach members outsider).weight address =
        members.length := by
      rw [Finset.sum_congr rfl fun address h => hweight address (List.mem_toFinset.mp h), hsame,
        Finset.sum_const, List.toFinset_card_of_nodup hnodup, nsmul_eq_mul, mul_one, Nat.cast_id]
    rw [hcount] at hquorum
    omega

/-- Whatever the validators are, as long as their powers are added without rounding: acceptance means
a quorum of distinct signers exactly if nobody has signed twice, or if some signature has no signer
and the certificate is never accepted. -/
theorem validate_quorum_iff (c : Crypto) (consensus : Consensus) (genesisHash : Hash)
    (hlen : consensus.signatures.length < 2 ^ 32) :
    (∀ (vs : ValidatorSet) (blockHash : Hash), vs.powerSum ≤ 2 ^ 53 →
      consensus.validate c blockHash genesisHash vs = .ok () →
        vs.Quorum (consensus.signers c genesisHash).toFinset) ↔
      (∀ sign ∈ consensus.signatures, ∃ address,
          consensus.signer c genesisHash sign = .ok address) →
        (consensus.signers c genesisHash).Nodup := by
  constructor
  · intro hquorum hall
    by_contra hrepeated
    rcases exists_accepts_repeated hlen hall hrepeated with ⟨vs, -, hsum, hvalid, hnot⟩
    exact hnot (hquorum vs _ hsum hvalid)
  · intro hnodup vs blockHash hsum hvalid
    refine quorum_of_validate hsum (hnodup ?_) hvalid
    intro sign hsign
    rcases (validate_eq_ok_iff.mp hvalid).2.1 sign hsign with ⟨address, haddress, -⟩
    exact ⟨address, haddress⟩

section Repeated

/-- The key whose 32 bytes all are `b`. -/
def sampleKey (b : UInt8) : KeyPair := ⟨⟨List.replicate 32 b, by simp⟩⟩

/-- Three validators of equal power. -/
def sampleValidatorSet : ValidatorSet :=
  ⟨[⟨(sampleKey 1).address .transparent, 10⟩, ⟨(sampleKey 2).address .transparent, 10⟩,
    ⟨(sampleKey 3).address .transparent, 10⟩]⟩

def sampleVote : Vote := ⟨1, 1, Hash.fromData .transparent [1]⟩

/-- A certificate with the signature of one validator three times over. -/
def repeatedCertificate : Consensus :=
  match VoteMessage.digest .transparent .precommit sampleVote Hash.zero with
  | .ok digest => ⟨sampleVote, List.replicate 3 ((sampleKey 1).sign .transparent digest)⟩
  | .error _ => ⟨sampleVote, []⟩

/-- One validator out of three passes for more than two thirds by signing three times. -/
theorem validate_repeated :
    repeatedCertificate.validate .transparent sampleVote.blockHash Hash.zero sampleValidatorSet
        = .ok () ∧
      ¬ sampleValidatorSet.Quorum
        (repeatedCertificate.signers .transparent Hash.zero).toFinset := by
  decide +kernel

theorem validate_quorum_iff_repeated :
    (∀ (vs : ValidatorSet) (blockHash : Hash), vs.powerSum ≤ 2 ^ 53 →
      repeatedCertificate.validate .transparent blockHash Hash.zero vs = .ok () →
        vs.Quorum (repeatedCertificate.signers .transparent Hash.zero).toFinset) ↔
      (∀ sign ∈ repeatedCertificate.signatures, ∃ address,
          repeatedCertificate.signer .transparent Hash.zero sign = .ok address) →
        (repeatedCertificate.signers .transparent Hash.zero).Nodup :=
  validate_quorum_iff .transparent repeatedCertificate Hash.zero (by decide +kernel)

end Repeated

end Consensus

end UniqysKit
