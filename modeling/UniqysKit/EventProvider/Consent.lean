import Mathlib.Data.List.Duplicate
import UniqysKit.Blockchain.Block
import UniqysKit.EventProvider.Uniqys
import UniqysKit.EventProvider.ValidatorSet

/-!
# Consent of the validators on chain

`ValidatorSet.isConsented` adds up the power of each signature, like `Consensus.validate` of the node,
and like that it counts a signer as often as it has signed.  `verifyBlockHeader` computes the digest of
a precommit for a header.

The contract adds whole numbers and the node adds doubles.  As long as nothing is rounded, what the
node accepts as the certificate of a block, the contract accepts as well.
-/

namespace UniqysKit
namespace EventProvider
namespace ValidatorSet

open Library.BigEndian

section Definitions

variable (ecrecover : Ecrecover) (state : ValidatorSet) (target : Hash)

/-- The body of the loop of `isConsented`. -/
def addSigned [SafeMath] [BytesLib] (sum : Nat) (signature : Bytes) : Result Nat := do
  let (r, s, v) ← Uniqys.parseSignature signature
  let signer := ecrecover target v r s
  if signer ≠ Address.zero then SafeMath.add sum (state.powers signer) else return sum

def isConsented [SafeMath] [BytesLib] (signatures : List Bytes) : Result Bool := do
  let sum ← signatures.foldlM (addSigned ecrecover state target) 0
  return (← SafeMath.mul sum 3) > (← SafeMath.mul state.totalPower 2)

variable (c : Crypto)

/-- The digest that `verifyBlockHeader` computes, of the packed fields. -/
def headerDigest (header : Uniqys.BlockHeader) (consensusRound : Nat) (genesisHash : Hash) : Hash :=
  let blockHash := Hash.fromData c
    (toBytes 8 header.height ++ toBytes 8 header.timestamp ++ header.lastBlockHash.buffer ++
      header.transactionRoot.buffer ++ header.lastBlockConsensusRoot.buffer ++
      header.nextValidatorSetRoot.buffer ++ header.appStateHash.buffer)
  Hash.fromData c
    (genesisHash.buffer ++ toBytes 1 Uniqys.getPrecommitId ++ toBytes 8 header.height ++
      toBytes 4 consensusRound ++ blockHash.buffer)

def verifyBlockHeader [SafeMath] [BytesLib] (header : Uniqys.BlockHeader) (consensusRound : Nat)
    (genesisHash : Hash) (signatures : List Bytes) : Result Unit := do
  let digest := headerDigest c header consensusRound genesisHash
  if ← isConsented ecrecover state digest signatures then return ()
  else throw ⟨"Consensus could not be verified"⟩

/-- Whom a signature is counted for. -/
def signer [BytesLib] (signature : Bytes) : Option Address :=
  match Uniqys.parseSignature signature with
  | .ok (r, s, v) =>
      let signer := ecrecover target v r s
      if signer ≠ Address.zero then some signer else none
  | .error _ => none

/-- The non-zero addresses recovered from the signatures, in the order of the array. -/
def signers [BytesLib] (signatures : List Bytes) : List Address :=
  signatures.filterMap (signer ecrecover target)

end Definitions

/-! ## Two thirds of the power -/

/-- One account gets two thirds of the power, exactly, and another one the rest. -/
def twoThirds (account outsider : Address) : List PowerUpdate := [⟨0, account, 2⟩, ⟨0, outsider, 1⟩]

theorem run_twoThirds [SafeMath] {account outsider : Address} (hne : outsider ≠ account) :
    run (twoThirds account outsider) =
      .ok ⟨Function.update (Function.update (fun _ => 0) account 2) outsider 1, [account, outsider], 3⟩ := by
  have hfirst : SafeMath.add 0 2 = .ok 2 := SafeMath.add_eq_ok_iff.mpr ⟨by norm_num, rfl⟩
  have hsecond : SafeMath.add 2 1 = .ok 3 := SafeMath.add_eq_ok_iff.mpr ⟨by norm_num, rfl⟩
  simp [run, twoThirds, updatePower, enter, leave, new, hfirst, hsecond, Function.update_of_ne hne]

/-- In a list without the outsider only the one account has power. -/
theorem sum_twoThirds {account outsider : Address} (hne : outsider ≠ account) {addresses : List Address}
    (hout : outsider ∉ addresses) :
    (addresses.map (Function.update (Function.update (fun _ => 0) account 2) outsider 1)).sum =
      2 * addresses.count account := by
  induction addresses with
  | nil => rfl
  | cons address rest ih =>
      rw [List.mem_cons, not_or] at hout
      rw [List.map_cons, List.sum_cons, ih hout.2, Function.update_of_ne (Ne.symm hout.1)]
      by_cases hsame : address = account
      · subst hsame
        rw [Function.update_self, List.count_cons_self]
        omega
      · rw [Function.update_of_ne hsame, List.count_cons_of_ne hsame]
        omega

section Counting

variable [SafeMath] [BytesLib] {ecrecover : Ecrecover} {state : ValidatorSet} {target : Hash}

/-! ## What is counted -/

theorem addSigned_eq_ok_iff {sum sum' : Nat} {signature : Bytes} (hsum : sum < 2 ^ 256) :
    addSigned ecrecover state target sum signature = .ok sum' ↔
      65 ≤ signature.length ∧
        sum + ((signer ecrecover target signature).map state.powers).getD 0 < 2 ^ 256 ∧
        sum' = sum + ((signer ecrecover target signature).map state.powers).getD 0 := by
  unfold addSigned signer
  cases hparse : Uniqys.parseSignature signature with
  | error e =>
      have hshort : ¬ 65 ≤ signature.length := by
        intro hlong
        rw [Uniqys.parseSignature_eq hlong] at hparse
        cases hparse
      simp [hshort]
  | ok parts =>
      rcases parts with ⟨r, s, v⟩
      have hlong := Uniqys.le_length_of_parseSignature hparse
      rw [Result.ok_bind, and_iff_right hlong]
      simp only
      split
      · exact SafeMath.add_eq_ok_iff
      · rw [Option.map_none, Option.getD_none, Nat.add_zero, and_iff_right hsum]
        simp [eq_comm]

/-- What the loop computes: each signature adds the power of its signer, repeated or not. -/
theorem foldlM_addSigned_eq_ok_iff (signatures : List Bytes) {sum sum' : Nat}
    (hsum : sum < 2 ^ 256) :
    signatures.foldlM (addSigned ecrecover state target) sum = .ok sum' ↔
      (∀ signature ∈ signatures, 65 ≤ signature.length) ∧
        sum + ((signers ecrecover target signatures).map state.powers).sum < 2 ^ 256 ∧
        sum' = sum + ((signers ecrecover target signatures).map state.powers).sum := by
  induction signatures generalizing sum with
  | nil =>
      have hnone : ((signers ecrecover target []).map state.powers).sum = 0 := rfl
      rw [hnone, Nat.add_zero, and_iff_right hsum, List.foldlM_nil]
      simp [eq_comm]
  | cons signature rest ih =>
      -- a signature without a signer adds nothing
      have hsplit : ((signers ecrecover target (signature :: rest)).map state.powers).sum =
          ((signer ecrecover target signature).map state.powers).getD 0 +
            ((signers ecrecover target rest).map state.powers).sum := by
        unfold signers
        rw [List.filterMap_cons]
        cases signer ecrecover target signature with
        | none => simp
        | some address => simp
      have hstep := @addSigned_eq_ok_iff _ _ ecrecover state target sum
      rw [List.foldlM_cons, Result.bind_eq_ok, hsplit, List.forall_mem_cons]
      constructor
      · rintro ⟨next, hnext, hrest⟩
        rcases (hstep hsum).mp hnext with ⟨hlong, hlt, rfl⟩
        rcases (ih hlt).mp hrest with ⟨hall, hlt', rfl⟩
        exact ⟨⟨hlong, hall⟩, by omega, by omega⟩
      · rintro ⟨⟨hlong, hall⟩, hlt, rfl⟩
        refine ⟨_, (hstep hsum).mpr ⟨hlong, by omega, rfl⟩, (ih (by omega)).mpr ⟨hall, ?_, ?_⟩⟩
        · omega
        · omega

/-- What `isConsented` says yes to. -/
theorem isConsented_eq_true_iff {signatures : List Bytes} :
    isConsented ecrecover state target signatures = .ok true ↔
      (∀ signature ∈ signatures, 65 ≤ signature.length) ∧
        ((signers ecrecover target signatures).map state.powers).sum * 3 < 2 ^ 256 ∧
        state.totalPower * 2 < 2 ^ 256 ∧
        state.totalPower * 2 < ((signers ecrecover target signatures).map state.powers).sum * 3 := by
  unfold isConsented
  constructor
  · intro h
    rcases Result.bind_eq_ok.mp h with ⟨sum, hloop, h⟩
    -- the loop has not reverted, and neither product is beyond a word
    rcases (foldlM_addSigned_eq_ok_iff signatures (by decide)).mp hloop with ⟨hall, -, rfl⟩
    rcases Result.bind_eq_ok.mp h with ⟨left, hleft, h⟩
    rcases Result.bind_eq_ok.mp h with ⟨right, hright, h⟩
    rcases SafeMath.mul_eq_ok_iff.mp hleft with ⟨hlt, rfl⟩
    rcases SafeMath.mul_eq_ok_iff.mp hright with ⟨hlt', rfl⟩
    rw [Nat.zero_add] at hlt h
    refine ⟨hall, hlt, hlt', ?_⟩
    simpa using Except.ok.inj h
  · rintro ⟨hall, hlt, hlt', hpower⟩
    have hloop := (@foldlM_addSigned_eq_ok_iff _ _ ecrecover state target signatures 0 _
      (by decide)).mpr ⟨hall, by omega, rfl⟩
    rw [hloop, Nat.zero_add, Result.ok_bind, SafeMath.mul_eq_ok_iff.mpr ⟨hlt, rfl⟩, Result.ok_bind,
      SafeMath.mul_eq_ok_iff.mpr ⟨hlt', rfl⟩, Result.ok_bind]
    simpa using hpower

/-! ## Distinct signers -/

/-- Without repetition the signatures are counted correctly. -/
theorem quorum_of_isConsented {signatures : List Bytes}
    (hnodup : (signers ecrecover target signatures).Nodup)
    (h : isConsented ecrecover state target signatures = .ok true) :
    state.totalPower * 2 <
      (∑ address ∈ (signers ecrecover target signatures).toFinset, state.powers address) * 3 := by
  rw [List.sum_toFinset _ hnodup]
  exact (isConsented_eq_true_iff.mp h).2.2.2

/-- If somebody has signed twice, there is a table with which the contract consents without a quorum. -/
theorem exists_consents_repeated {signatures : List Bytes} (hlen : signatures.length < 2 ^ 128)
    (hlong : ∀ signature ∈ signatures, 65 ≤ signature.length)
    (hrepeated : ¬ (signers ecrecover target signatures).Nodup) :
    ∃ updates state, run updates = .ok state ∧
      isConsented ecrecover state target signatures = .ok true ∧
      ¬ state.totalPower * 2 <
        (∑ address ∈ (signers ecrecover target signatures).toFinset, state.powers address) * 3 := by
  let members := signers ecrecover target signatures
  have hlength : members.length ≤ signatures.length := List.length_filterMap_le _ _
  rcases List.exists_duplicate_iff_not_nodup.mpr hrepeated with ⟨account, hduplicate⟩
  have htwice : 2 ≤ members.count account := List.duplicate_iff_two_le_count.mp hduplicate
  have hcount : members.count account ≤ members.length := List.count_le_length
  rcases @Consensus.exists_address_not_mem members (by omega) with ⟨outsider, hout⟩
  have hne : outsider ≠ account := by
    rintro rfl
    exact hout hduplicate.mem
  have hsum := sum_twoThirds hne hout
  refine ⟨twoThirds account outsider, _, run_twoThirds hne, ?_, ?_⟩
  · refine isConsented_eq_true_iff.mpr ⟨hlong, ?_, by norm_num, ?_⟩
    · rw [hsum]
      omega
    · rw [hsum]
      show 3 * 2 < _
      omega
  · -- counted once, the account has two thirds and not more
    have hout' : outsider ∉ members.dedup := fun hmem => hout (List.mem_dedup.mp hmem)
    have honce : members.dedup.count account = 1 :=
      List.count_eq_one_of_mem (List.nodup_dedup members) (List.mem_dedup.mpr hduplicate.mem)
    have hsame : members.toFinset = members.dedup.toFinset := by
      ext address
      rw [List.mem_toFinset, List.mem_toFinset, List.mem_dedup]
    rw [show (signers ecrecover target signatures).toFinset = members.dedup.toFinset from hsame,
      List.sum_toFinset _ (List.nodup_dedup members), sum_twoThirds hne hout', honce]
    norm_num

end Counting

/-- Whatever the table is: consent means more than two thirds of the power of distinct signers exactly
if nobody has signed twice, or if a signature is too short and there is never consent.  No array in
memory comes near the bound of the length. -/
theorem isConsented_distinct_iff [SafeMath] [BytesLib] (ecrecover : Ecrecover) (target : Hash)
    (signatures : List Bytes) (hlen : signatures.length < 2 ^ 128) :
    (∀ updates state, run updates = .ok state →
      isConsented ecrecover state target signatures = .ok true →
        state.totalPower * 2 <
          (∑ address ∈ (signers ecrecover target signatures).toFinset, state.powers address) * 3) ↔
      ((∀ signature ∈ signatures, 65 ≤ signature.length) →
        (signers ecrecover target signatures).Nodup) := by
  constructor
  · intro hdistinct hlong
    by_contra hrepeated
    rcases exists_consents_repeated hlen hlong hrepeated with ⟨updates, state, hrun, htrue, hnot⟩
    exact hnot (hdistinct updates state hrun htrue)
  · intro hnodup updates state _ htrue
    exact quorum_of_isConsented (hnodup (isConsented_eq_true_iff.mp htrue).1) htrue

/-! ### One signature, three times -/

/-- Three validators of equal power. -/
def equalUpdates : List PowerUpdate :=
  [⟨1, (Consensus.sampleKey 1).address .transparent, 10⟩,
    ⟨1, (Consensus.sampleKey 2).address .transparent, 10⟩,
    ⟨1, (Consensus.sampleKey 3).address .transparent, 10⟩]

/-- One validator out of three passes for more than two thirds by signing three times. -/
theorem isConsented_repeated :
    ∃ state, run equalUpdates = .ok state ∧
      isConsented (ecrecoverOf .transparent) state Hash.zero
        (List.replicate 3 ((Consensus.sampleKey 1).sign .transparent Hash.zero).buffer) = .ok true ∧
      ¬ state.totalPower * 2 <
        (∑ address ∈ (signers (ecrecoverOf .transparent) Hash.zero
          (List.replicate 3
            ((Consensus.sampleKey 1).sign .transparent Hash.zero).buffer)).toFinset,
          state.powers address) * 3 := by
  have hall : (run equalUpdates).toOption.any (fun state => decide
      (isConsented (ecrecoverOf .transparent) state Hash.zero
          (List.replicate 3 ((Consensus.sampleKey 1).sign .transparent Hash.zero).buffer) =
            .ok true ∧
        ¬ state.totalPower * 2 <
          (∑ address ∈ (signers (ecrecoverOf .transparent) Hash.zero
            (List.replicate 3
              ((Consensus.sampleKey 1).sign .transparent Hash.zero).buffer)).toFinset,
            state.powers address) * 3)) = true := by
    decide +kernel
  cases hrun : run equalUpdates with
  | error e =>
      rw [hrun] at hall
      cases hall
  | ok state =>
      rw [hrun] at hall
      simp only [Except.toOption, Option.any_some, decide_eq_true_eq] at hall
      exact ⟨state, rfl, hall⟩

theorem isConsented_distinct_iff_repeated :
    (∀ updates state, run updates = .ok state →
      isConsented (ecrecoverOf .transparent) state Hash.zero
        (List.replicate 3 ((Consensus.sampleKey 1).sign .transparent Hash.zero).buffer) = .ok true →
        state.totalPower * 2 <
          (∑ address ∈ (signers (ecrecoverOf .transparent) Hash.zero
            (List.replicate 3
              ((Consensus.sampleKey 1).sign .transparent Hash.zero).buffer)).toFinset,
            state.powers address) * 3) ↔
      ((∀ signature ∈
          List.replicate 3 ((Consensus.sampleKey 1).sign .transparent Hash.zero).buffer,
        65 ≤ signature.length) →
        (signers (ecrecoverOf .transparent) Hash.zero
          (List.replicate 3
            ((Consensus.sampleKey 1).sign .transparent Hash.zero).buffer)).Nodup) :=
  isConsented_distinct_iff (ecrecoverOf .transparent) Hash.zero _ (by rw [List.length_replicate]; norm_num)

/-! ## The node and the contract -/

/-- A header as the contract gets it. -/
def contractHeader (header : BlockHeader) : Uniqys.BlockHeader where
  height := header.height
  timestamp := header.timestamp
  lastBlockHash := header.lastBlockHash
  transactionRoot := header.transactionRoot
  lastBlockConsensusRoot := header.lastBlockConsensusRoot
  nextValidatorSetRoot := header.nextValidatorSetRoot
  appStateHash := header.appStateHash
  height_lt := header.height_lt.trans (by decide)
  timestamp_lt := header.timestamp_lt.trans (by decide)

theorem verifyBlockHeader_eq_ok_iff [SafeMath] [BytesLib] {c : Crypto} {ecrecover : Ecrecover}
    {state : ValidatorSet} {header : Uniqys.BlockHeader} {round : Nat} {genesisHash : Hash}
    {signatures : List Bytes} :
    verifyBlockHeader ecrecover state c header round genesisHash signatures = .ok () ↔
      isConsented ecrecover state (headerDigest c header round genesisHash) signatures = .ok true := by
  constructor
  · intro h
    rcases Result.bind_eq_ok.mp h with ⟨consented, hconsented, h⟩
    cases consented with
    | true => exact hconsented
    | false => cases h
  · intro h
    rw [verifyBlockHeader, h]
    rfl

section Node

variable {c : Crypto} {header : BlockHeader} {round : Nat} {genesisHash : Hash}
  {vs : UniqysKit.ValidatorSet}

/-- A number of 48 bits in eight bytes. -/
theorem toBytes_eight {n : Nat} (h : n < 2 ^ 48) : toBytes 8 n = [0, 0] ++ toBytes 6 n :=
  @toBytes_add 2 6 n (lt_of_lt_of_eq h (by norm_num))

/-- The vote of a validator for the block. -/
def voteFor (c : Crypto) (header : BlockHeader) (round : Nat) : Vote :=
  ⟨header.height, round, header.hash c⟩

theorem digest_eq_headerDigest (hround : round < 2 ^ 32) :
    VoteMessage.digest c .precommit (voteFor c header round) genesisHash =
      .ok (headerDigest c (contractHeader header) round genesisHash) := by
  have hvote : (voteFor c header round).serialize =
      .ok (([0, 0] ++ toBytes 6 header.height) ++ toBytes 4 round ++ (header.hash c).buffer) := by
    simp only [voteFor, Vote.serialize, UInt64.serialize_of_lt header.height_lt,
      UInt32.serialize_of_lt hround, Result.ok_bind, Result.pure_eq]
    rfl
  have hlabel : UInt8.serialize VoteType.precommit.label =
      .ok (toBytes 1 Uniqys.getPrecommitId) := rfl
  rw [VoteMessage.digest, hvote, hlabel]
  simp only [Result.ok_bind, Result.pure_eq, headerDigest, contractHeader,
    toBytes_eight header.height_lt, toBytes_eight header.timestamp_lt, BlockHeader.hash,
    BlockHeader.serialize, Hash.serialize, List.append_assoc]

theorem powers_eq_weight {state : ValidatorSet} {address : Address}
    (hpowers : ∀ v ∈ vs.validators, state.powers v.address = v.power)
    (hweight : 0 < vs.weight address) : state.powers address = vs.weight address := by
  have hpower := (UniqysKit.ValidatorSet.powerOf_eq_ok_iff.mp
    (UniqysKit.ValidatorSet.weight_pos_iff.mp hweight)).1
  rcases Option.map_eq_some_iff.mp hpower with ⟨v, hfind, hv⟩
  have hmem := List.mem_reverse.mp (List.mem_of_find?_eq_some hfind)
  have haddress : v.address = address := by simpa using List.find?_some hfind
  rw [← hv, ← hpowers v hmem, haddress]

/-- The signers that the node has found have power, and the contract finds them as well. -/
theorem signers_of_validate [BytesLib] {ecrecover : Ecrecover} {digest : Hash} {consensus : Consensus}
    (hagrees : Agrees c ecrecover)
    (hdigest : VoteMessage.digest c .precommit consensus.vote genesisHash = .ok digest)
    {signatures : List Signature}
    (hzero : ∀ signature ∈ signatures, signature.address c digest ≠ some Address.zero)
    (hall : ∀ signature ∈ signatures, ∃ address,
      consensus.signer c genesisHash signature = .ok address ∧ 0 < vs.weight address) :
    signers ecrecover digest (signatures.map Signature.buffer) =
      signatures.filterMap fun sign => (consensus.signer c genesisHash sign).toOption := by
  rw [signers, List.filterMap_map]
  refine List.filterMap_congr ?_
  intro signature hmem
  rcases hall signature hmem with ⟨address, hsigner, -⟩
  -- the node has recovered the address from the digest that the contract computes too
  have haddress : signature.address c digest = some address := by
    simp only [Consensus.signer, VoteMessage.signerAddress, hdigest, Result.ok_bind,
      UniqysKit.signerOf] at hsigner
    split at hsigner
    · rename_i found hfound
      cases hsigner
      exact hfound
    · cases hsigner
  have hne : address ≠ Address.zero := by
    rintro rfl
    exact hzero signature hmem haddress
  rw [hsigner]
  simp only [Function.comp_apply, signer, Uniqys.parseSignature_buffer]
  rw [hagrees digest signature address haddress, if_pos hne]
  rfl

end Node

/-- The header is verified by the precommits of the node's digest: the contract asks for their consent,
and it does not revert on a certificate that the node accepts, if its validators are those of the
contract, no sum of the contract overflows, and the node's sum is not rounded up, or not where it
counts. That `ecrecover` gives zero for an error only is part of what the node relies on. -/
theorem verifies_what_node_accepts [SafeMath] [BytesLib] (c : Crypto) (ecrecover : Ecrecover)
    (hagrees : Agrees c ecrecover) (header : BlockHeader) (round : Nat) (hround : round < 2 ^ 32)
    (genesisHash : Hash) (vs : UniqysKit.ValidatorSet) (state : ValidatorSet)
    (hpowers : ∀ v ∈ vs.validators, state.powers v.address = v.power)
    (htotal : state.totalPower = vs.totalPower) (signatures : List Signature)
    (hzero : ∀ signature ∈ signatures, signature.address c
      (headerDigest c (contractHeader header) round genesisHash) ≠ some Address.zero)
    (hsum : ((signers ecrecover (headerDigest c (contractHeader header) round genesisHash)
      (signatures.map Signature.buffer)).map state.powers).sum * 3 < 2 ^ 256)
    (hdouble : state.totalPower * 2 < 2 ^ 256)
    (hexact : Library.Doubles.sum
        ((Consensus.signers c ⟨voteFor c header round, signatures⟩ genesisHash).map vs.weight) ≤
      ((Consensus.signers c ⟨voteFor c header round, signatures⟩ genesisHash).map vs.weight).sum ∨
        vs.totalPower ≤ 3 * 2 ^ 52) :
    ∃ digest, VoteMessage.digest c .precommit (voteFor c header round) genesisHash = .ok digest ∧
      (∀ given, verifyBlockHeader ecrecover state c (contractHeader header) round genesisHash given =
          .ok () ↔
        isConsented ecrecover state digest given = .ok true) ∧
      (Consensus.validate c ⟨voteFor c header round, signatures⟩ (header.hash c) genesisHash vs =
          .ok () →
        verifyBlockHeader ecrecover state c (contractHeader header) round genesisHash
          (signatures.map Signature.buffer) = .ok ()) := by
  have hdigest := @digest_eq_headerDigest c header round genesisHash hround
  refine ⟨_, hdigest, fun given => verifyBlockHeader_eq_ok_iff, ?_⟩
  intro hvalidate
  rcases Consensus.validate_eq_ok_iff.mp hvalidate with ⟨-, hall, hquorum⟩
  -- both sides recover the same addresses from the same digest
  have hsigners := signers_of_validate hagrees hdigest hzero hall
  have hweights : (signers ecrecover (headerDigest c (contractHeader header) round genesisHash)
      (signatures.map Signature.buffer)).map state.powers =
      ((Consensus.signers c ⟨voteFor c header round, signatures⟩ genesisHash).map vs.weight) := by
    rw [hsigners]
    refine List.map_congr_left ?_
    intro address hmem
    rcases List.mem_filterMap.mp hmem with ⟨signature, hsignature, haddress⟩
    rcases hall signature hsignature with ⟨found, hfound, hweight⟩
    rw [hfound] at haddress
    cases haddress
    exact powers_eq_weight hpowers hweight
  -- the contract reads 65 bytes of each signature
  have hlong : ∀ signature ∈ signatures.map Signature.buffer, 65 ≤ signature.length := by
    intro bytes hmem
    rcases List.mem_map.mp hmem with ⟨signature, -, rfl⟩
    rw [signature.size]
  refine verifyBlockHeader_eq_ok_iff.mpr
    (isConsented_eq_true_iff.mpr ⟨hlong, hsum, hdouble, ?_⟩)
  rw [hweights, htotal]
  exact UniqysKit.ValidatorSet.lt_of_passes_sum hexact hquorum

/-- Three of the three validators sign a block of height 42. -/
def sampleHeader : BlockHeader :=
  ⟨42, 1520825696, Hash.zero, Hash.zero, Hash.zero, Hash.zero, Hash.zero, by decide, by decide⟩

def sampleSignatures : List Signature :=
  [1, 2, 3].map fun b => (Consensus.sampleKey b).sign .transparent
    (headerDigest .transparent (contractHeader sampleHeader) 1 Hash.zero)

/-- The contract with the validators of the node. -/
def sampleTable : ValidatorSet :=
  ⟨Consensus.sampleValidatorSet.weight, Consensus.sampleValidatorSet.validators.map Validator.address,
    Consensus.sampleValidatorSet.totalPower⟩

theorem verifies_what_node_accepts_sample :
    verifyBlockHeader (ecrecoverOf .transparent) sampleTable .transparent
      (contractHeader sampleHeader) 1 Hash.zero (sampleSignatures.map Signature.buffer) = .ok () :=
  let ⟨_, _, _, haccepts⟩ := verifies_what_node_accepts .transparent (ecrecoverOf .transparent)
    (agrees_ecrecoverOf .transparent) sampleHeader 1 (by decide) Hash.zero
    Consensus.sampleValidatorSet sampleTable (by decide +kernel) rfl sampleSignatures
    (by decide +kernel) (by decide +kernel) (by decide +kernel) (.inr (by decide +kernel))
  haccepts (by decide +kernel)

/-! ### Doubles and whole numbers -/

/-- The powers of those who sign: two of the sums are rounded up when they are added as doubles. -/
def signingPowers : List Nat := List.replicate 32 (2 ^ 48 - 2) ++ [64, 3, 3]

def silentPowers : List Nat := List.replicate 16 (2 ^ 48 - 2) ++ [36]

def signingKeys : List UInt8 := (List.range 35).map UInt8.ofNat

def silentKeys : List UInt8 := (List.range 17).map fun n => UInt8.ofNat (n + 35)

/-- Validators with these keys. -/
def keyedValidators (keys : List UInt8) (powers : List Nat) : List Validator :=
  List.zipWith (fun b power => ⟨(Consensus.sampleKey b).address .transparent, power⟩) keys powers

/-- The two with the least power come first, so the total is exact. -/
def manyValidators : UniqysKit.ValidatorSet :=
  ⟨(keyedValidators signingKeys signingPowers).reverse ++ keyedValidators silentKeys silentPowers⟩

def manySignatures : List Signature :=
  let digest := headerDigest .transparent (contractHeader sampleHeader) 1 Hash.zero
  signingKeys.map fun b => (Consensus.sampleKey b).sign .transparent digest

/-- The contract with these validators. -/
def manyTable : ValidatorSet :=
  ⟨manyValidators.weight, manyValidators.validators.map Validator.address, manyValidators.totalPower⟩

/-- The signatures are short of two thirds by two, which the rounding of the node makes up for: the node
accepts what the contract refuses. -/
theorem refuses_what_node_accepts :
    (manyValidators.validators.map Validator.address).Nodup ∧
    (∀ v ∈ manyValidators.validators, v.power < 2 ^ 48 ∧ manyTable.powers v.address = v.power) ∧
    manyTable.totalPower = manyValidators.powerSum ∧
    Consensus.validate .transparent ⟨voteFor .transparent sampleHeader 1, manySignatures⟩
        (sampleHeader.hash .transparent) Hash.zero manyValidators = .ok () ∧
    verifyBlockHeader (ecrecoverOf .transparent) manyTable .transparent
        (contractHeader sampleHeader) 1 Hash.zero (manySignatures.map Signature.buffer) ≠ .ok () := by
  refine ⟨?_, ?_, ?_, ?_, ?_⟩
  · decide +kernel
  · decide +kernel
  · decide +kernel
  · decide +kernel
  · decide +kernel

end ValidatorSet

end EventProvider
end UniqysKit
