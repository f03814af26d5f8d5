import UniqysKit.ChainCore.Agreement
import UniqysKit.ChainCore.ServedConsensus
import UniqysKit.EventProvider.Consent

/-!
# One chain

A certificate is accepted in three places: by the engine that commits a block, by `Consensus.validate`
of a node that gets the block from others, and by the contract on Ethereum.  Whoever has put it
together, without a repeated signature it is made of the precommits of more than two thirds of the
power, and those of honest nodes were sent by their engines.  So all of them accept the same block at a
height (`accepted_agree`).

From this, by induction on the height, the chains of two nodes are the same as far as both go: the
validators of a height are named by the header before (`chains_agree`).
-/

namespace UniqysKit
namespace ChainCore

open Library
open EventProvider (SafeMath BytesLib)

namespace Nodes

variable {ι : Type} {c : Crypto} {nodes : Nodes ι} {h : Nat} {vs : ValidatorSet}
  {engines : ι → Engine}

/-! ## What is assumed of a height -/

variable (c nodes h vs engines) in
/-- A run of the honest nodes, in which the powers of the validators add up to `2 ^ 53` at most, no two
nodes share a validator's key, the validators without an honest node hold a third of the power at
most, and each node enters the height once at most, with this validator set. -/
structure HonestMajority : Prop where
  reachable : nodes.Reachable c h vs engines
  bounded : vs.powerSum ≤ 2 ^ 53
  keys : ∀ i j a, a ∈ nodes.address c i → a ∈ nodes.address c j → 0 < vs.weight a → i = j
  byzantine : ∀ members : Finset Address, (∀ a ∈ members, ∀ i, a ∉ nodes.address c i) →
    (∑ a ∈ members, vs.weight a) * 3 ≤ vs.powerSum
  once : ∀ i, EntersOnce h vs (engines i).trace

/-! ## Certificates -/

variable (c nodes h vs engines) in
/-- The precommits of a certificate that are attributed to honest nodes were given by them. -/
def UnforgedCertificate (consensus : Consensus) : Prop :=
  ∀ sign ∈ consensus.signatures,
    nodes.Unforged c h vs engines (.precommit ⟨consensus.vote, sign⟩)

variable (c nodes) in
/-- The digest that the contract computes for the precommits of a header. -/
def onChainDigest (header : BlockHeader) (round : Nat) : Hash :=
  EventProvider.ValidatorSet.headerDigest c (EventProvider.ValidatorSet.contractHeader header) round
    (nodes.genesisHash c)

variable (c nodes vs engines) in
/-- The same of signatures that were given to the contract, whose signers `ecrecover` finds. -/
def UnforgedOnChain [BytesLib] (ecrecover : EventProvider.Ecrecover) (header : BlockHeader) (round : Nat)
    (signatures : List Bytes) : Prop :=
  ∀ signature ∈ signatures, ∀ a,
    EventProvider.ValidatorSet.signer ecrecover (nodes.onChainDigest c header round) signature =
        some a →
      ∀ j, a ∈ nodes.address c j → 0 < vs.weight a →
        ∃ sent sign, .gossip sent ∈ (engines j).trace ∧
          signerAddress c (nodes.genesisHash c) sent = .ok a ∧
          signedData (nodes.genesisHash c) sent = signedData (nodes.genesisHash c)
            (.precommit ⟨EventProvider.ValidatorSet.voteFor c header round, sign⟩)

variable (c nodes h vs engines) in
/-- The hash of a block that is taken for decided at the height. -/
inductive Accepted [SafeMath] [BytesLib] (ecrecover : EventProvider.Ecrecover) : Hash → Prop
  /-- An honest engine commits the block. -/
  | committed {i : ι} {block : Block} {consensus : Consensus}
      (hcommit : .commitBlock h block consensus ∈ (engines i).trace) :
      Accepted ecrecover (block.hash c)
  /-- The certificate passes the check of a node, and nobody has signed it twice. -/
  | certified {blockHash : Hash} {consensus : Consensus}
      (hvalid : consensus.validate c blockHash (nodes.genesisHash c) vs = .ok ())
      (hnodup : (consensus.signers c (nodes.genesisHash c)).Nodup)
      (hheight : consensus.vote.height = h)
      (hunforged : nodes.UnforgedCertificate c h vs engines consensus) :
      Accepted ecrecover blockHash
  /-- The certificate passes the check of the contract, whose table is the validator set of the
  height, and nobody has signed it twice. -/
  | onChain {table : EventProvider.ValidatorSet} {header : BlockHeader} {round : Nat}
      {signatures : List Bytes}
      (hverified : EventProvider.ValidatorSet.verifyBlockHeader ecrecover table c
        (EventProvider.ValidatorSet.contractHeader header) round (nodes.genesisHash c) signatures =
          .ok ())
      (hnodup : (EventProvider.ValidatorSet.signers ecrecover (nodes.onChainDigest c header round)
        signatures).Nodup)
      (hpowers : ∀ a, table.powers a = vs.weight a) (htotal : table.totalPower = vs.totalPower)
      (hheight : header.height = h)
      (hunforged : nodes.UnforgedOnChain c vs engines ecrecover header round signatures) :
      Accepted ecrecover (header.hash c)

section Acceptance

variable (hmajority : nodes.HonestMajority c h vs engines)

/-- More than two thirds of the power have precommitted, as far as they are honest. -/
theorem HonestMajority.hasQuorum (members : Finset Address) {round : Nat} {b : Hash}
    (hb : b ≠ Hash.zero) (hquorum : vs.powerSum * 2 < (∑ a ∈ members, vs.weight a) * 3)
    (hcast : ∀ a ∈ members, 0 < vs.weight a → ∀ j, a ∈ nodes.address c j →
      Cast c (nodes.genesisHash c) (engines j).trace .precommit a ⟨h, round, b⟩) :
    (electorate hmajority.byzantine).HasQuorum
      (nodes.Voted c h vs engines .precommit round b) := by
  refine ⟨members.filter fun a => 0 < vs.weight a, ?_, ?_⟩
  · -- members without power add nothing to the sum
    have hsum : ∑ a ∈ members.filter (fun a => 0 < vs.weight a), vs.weight a =
        ∑ a ∈ members, vs.weight a := by
      refine Finset.sum_filter_of_ne ?_
      intro a _ hne
      exact Nat.pos_of_ne_zero hne
    change vs.powerSum * 2 < (∑ a ∈ members.filter _, vs.weight a) * 3
    rw [hsum]
    exact hquorum
  · intro a ha
    rcases Finset.mem_filter.mp ha with ⟨hmember, hweight⟩
    by_cases hhonest : ∃ j, a ∈ nodes.address c j
    · rcases hhonest with ⟨j, hj⟩
      exact .inr ⟨hb, hweight, j, hj, hcast a hmember hweight j hj⟩
    · exact .inl (not_exists.mp hhonest)

/-- A signer of the certificate that is honest has sent the precommit. -/
theorem UnforgedCertificate.cast {consensus : Consensus}
    (hunforged : nodes.UnforgedCertificate c h vs engines consensus)
    (hheight : consensus.vote.height = h) {a : Address}
    (ha : a ∈ consensus.signers c (nodes.genesisHash c)) (hweight : 0 < vs.weight a) {j : ι}
    (hj : a ∈ nodes.address c j) :
    Cast c (nodes.genesisHash c) (engines j).trace .precommit a consensus.vote := by
  rcases List.mem_filterMap.mp ha with ⟨sign, hsign, hsigner⟩
  have hrecovered : consensus.signer c (nodes.genesisHash c) sign = .ok a := by
    cases hresult : consensus.signer c (nodes.genesisHash c) sign with
    | error e =>
        rw [hresult] at hsigner
        cases hsigner
    | ok a' =>
        rw [hresult] at hsigner
        cases hsigner
        rfl
  exact @Unforged.cast ι c nodes h vs engines .precommit ⟨consensus.vote, sign⟩
    (hunforged sign hsign) hheight j a hj hweight hrecovered

theorem UnforgedOnChain.cast [BytesLib] {ecrecover : EventProvider.Ecrecover} {header : BlockHeader}
    {round : Nat} {signatures : List Bytes}
    (hunforged : nodes.UnforgedOnChain c vs engines ecrecover header round signatures) {a : Address}
    (ha : a ∈ EventProvider.ValidatorSet.signers ecrecover (nodes.onChainDigest c header round)
      signatures)
    (hweight : 0 < vs.weight a) {j : ι} (hj : a ∈ nodes.address c j) :
    Cast c (nodes.genesisHash c) (engines j).trace .precommit a
      (EventProvider.ValidatorSet.voteFor c header round) := by
  rcases List.mem_filterMap.mp ha with ⟨signature, hmem, hsigner⟩
  rcases hunforged signature hmem a hsigner j hj hweight with ⟨sent, sign, hsent, haddress, hdata⟩
  -- a signer could be recovered, so there is data that was signed
  have hbytes : ∃ bytes, signedData (nodes.genesisHash c) sent = .ok bytes := by
    rw [signerAddress_eq, Result.bind_eq_ok] at haddress
    rcases haddress with ⟨bytes, hbytes, -⟩
    exact ⟨bytes, hbytes⟩
  rcases hbytes with ⟨bytes, hbytes⟩
  rcases @eq_of_signedData (nodes.genesisHash c) .precommit
    ⟨EventProvider.ValidatorSet.voteFor c header round, sign⟩ sent bytes (hdata.symm.trans hbytes)
    hbytes with ⟨vote, rfl, hvote⟩
  exact ⟨vote, hsent, haddress, hvote⟩

/-- A certificate that a node accepts was precommitted by a quorum. -/
theorem HonestMajority.hasQuorum_of_valid {b : Hash} {consensus : Consensus} (hb : b ≠ Hash.zero)
    (hvalid : consensus.validate c b (nodes.genesisHash c) vs = .ok ())
    (hnodup : (consensus.signers c (nodes.genesisHash c)).Nodup)
    (hheight : consensus.vote.height = h)
    (hunforged : nodes.UnforgedCertificate c h vs engines consensus) :
    (electorate hmajority.byzantine).HasQuorum
      (nodes.Voted c h vs engines .precommit consensus.vote.round b) := by
  have hquorum := Consensus.quorum_of_validate hmajority.bounded hnodup hvalid
  have hvote := (Consensus.validate_eq_ok_iff.mp hvalid).1
  refine hmajority.hasQuorum _ hb hquorum.2 ?_
  intro a ha hweight j hj
  have hcast := hunforged.cast hheight (List.mem_toFinset.mp ha) hweight hj
  rw [← hheight, ← hvote]
  exact hcast

/-- Two quorums have precommitted the same block, in whatever rounds. -/
theorem HonestMajority.eq_of_quorums {round round' : Nat} {b b' : Hash}
    (hquorum : (electorate hmajority.byzantine).HasQuorum
      (nodes.Voted c h vs engines .precommit round b))
    (hquorum' : (electorate hmajority.byzantine).HasQuorum
      (nodes.Voted c h vs engines .precommit round' b')) : b = b' := by
  have hsafe := hmajority.reachable.safe hmajority.keys hmajority.once
  exact (hsafe.locking hmajority.byzantine
    (ValidatorSet.exactMajorities_of_le hmajority.bounded) hmajority.keys).decided_eq hquorum
    hquorum'

/-- Whatever is accepted was precommitted by a quorum. -/
theorem Accepted.hasQuorum [SafeMath] [BytesLib] {ecrecover : EventProvider.Ecrecover} {b : Hash}
    (haccepted : nodes.Accepted c h vs engines ecrecover b) (hb : b ≠ Hash.zero) :
    ∃ round, (electorate hmajority.byzantine).HasQuorum
      (nodes.Voted c h vs engines .precommit round b) := by
  cases haccepted with
  | @committed i block consensus hcommit =>
      have hsafe := hmajority.reachable.safe hmajority.keys hmajority.once
      rcases (hsafe.inv i).rules.committed block consensus hcommit with ⟨round, hseen⟩
      exact ⟨round, hsafe.hasQuorum hmajority.byzantine
        (ValidatorSet.exactMajorities_of_le hmajority.bounded) hb hseen⟩
  | @certified _ consensus hvalid hnodup hheight hunforged =>
      exact ⟨consensus.vote.round,
        hmajority.hasQuorum_of_valid hb hvalid hnodup hheight hunforged⟩
  | @onChain table header round signatures hverified hnodup hpowers htotal hheight hunforged =>
      have hconsented := EventProvider.ValidatorSet.verifyBlockHeader_eq_ok_iff.mp hverified
      let members := (EventProvider.ValidatorSet.signers ecrecover
        (nodes.onChainDigest c header round) signatures).toFinset
      refine ⟨round, hmajority.hasQuorum members hb ?_ ?_⟩
      · -- what the contract has added up is the power of different signers
        have hpower := EventProvider.ValidatorSet.quorum_of_isConsented hnodup hconsented
        rw [Finset.sum_congr rfl fun a _ => hpowers a, htotal,
          ValidatorSet.totalPower_of_le hmajority.bounded] at hpower
        exact hpower
      · intro a ha hweight j hj
        have hcast := hunforged.cast (List.mem_toFinset.mp ha) hweight hj
        rw [← hheight]
        exact hcast

end Acceptance

/-- No two different blocks are accepted at a height, be it by an engine that commits, or without a
repeated signature by a node that is given a certificate, or by the contract. -/
theorem accepted_agree [SafeMath] [BytesLib] (hmajority : nodes.HonestMajority c h vs engines)
    {ecrecover : EventProvider.Ecrecover} {b b' : Hash}
    (haccepted : nodes.Accepted c h vs engines ecrecover b)
    (haccepted' : nodes.Accepted c h vs engines ecrecover b') (hb : b ≠ Hash.zero)
    (hb' : b' ≠ Hash.zero) : b = b' := by
  rcases haccepted.hasQuorum hmajority hb with ⟨round, hquorum⟩
  rcases haccepted'.hasQuorum hmajority hb' with ⟨round', hquorum'⟩
  exact hmajority.eq_of_quorums hquorum hquorum'

/-! ### The run of two nodes -/

section Sample

/-- The certificate of the genesis block. -/
def genesisCertificate : Consensus :=
  sampleCertificate (Consensus.sampleKey 1) sampleGenesis.header

/-- The table of a contract with the same validator. -/
def soleTable : EventProvider.ValidatorSet where
  powers := soleValidatorSet.weight
  validators := soleValidatorSet.validators.map Validator.address
  totalPower := soleValidatorSet.totalPower

/-- Both nodes have entered the height once, the validator has sent its precommit, and the observer
has committed. -/
theorem evaluated_afterBoth :
    (∀ validator, entered 1 (afterBoth validator).trace = [soleValidatorSet]) ∧
    (∀ sign ∈ genesisCertificate.signatures,
      .gossip (.precommit ⟨genesisCertificate.vote, sign⟩) ∈ validatorAfter.trace) ∧
    ((afterBoth false).trace.any fun
      | .commitBlock 1 _ _ => true
      | _ => false) = true := by
  decide +kernel

/-- The contract accepts the certificate, and has recovered no signer twice. -/
theorem evaluated_genesisCertificate :
    (∀ sign ∈ genesisCertificate.signatures,
      signerAddress .transparent (validatorAndObserver.genesisHash .transparent)
        (.precommit ⟨genesisCertificate.vote, sign⟩) =
          .ok ((Consensus.sampleKey 1).address .transparent)) ∧
    genesisCertificate.vote =
      EventProvider.ValidatorSet.voteFor .transparent sampleGenesis.header 1 ∧
    EventProvider.ValidatorSet.verifyBlockHeader
      (EventProvider.ecrecoverOf .transparent) soleTable .transparent
      (EventProvider.ValidatorSet.contractHeader sampleGenesis.header) 1
      (validatorAndObserver.genesisHash .transparent)
      (genesisCertificate.signatures.map Signature.buffer) = .ok () ∧
    (EventProvider.ValidatorSet.signers (EventProvider.ecrecoverOf .transparent)
      (validatorAndObserver.onChainDigest .transparent sampleGenesis.header 1)
      (genesisCertificate.signatures.map Signature.buffer)).Nodup := by
  decide +kernel

theorem honestMajority_afterBoth :
    validatorAndObserver.HonestMajority .transparent 1 soleValidatorSet afterBoth := by
  refine ⟨reachable_afterBoth, by decide, ?_, ?_, ?_⟩
  · intro i j a hi hj _
    rw [(mem_address hi).1, (mem_address hj).1]
  · intro members hmembers
    -- the members that do not follow the rules have no power here
    have hsum : ∑ a ∈ members, soleValidatorSet.weight a = 0 := by
      refine Finset.sum_eq_zero ?_
      intro a ha
      by_contra hne
      have hlisted := mem_of_weight_pos (Nat.pos_of_ne_zero hne)
      obtain rfl := List.mem_singleton.mp hlisted
      exact hmembers _ ha true rfl
    rw [hsum]
    exact Nat.zero_le _
  · intro validator
    rw [EntersOnce, evaluated_afterBoth.1]

theorem unforged_genesisCertificate : validatorAndObserver.UnforgedCertificate .transparent 1
    soleValidatorSet afterBoth genesisCertificate := by
  intro sign hsign
  refine unforged_of_mem ?_
  intro j a ha _
  rcases mem_address ha with ⟨rfl, -⟩
  exact evaluated_afterBoth.2.1 sign hsign

theorem unforgedOnChain_genesis : validatorAndObserver.UnforgedOnChain .transparent soleValidatorSet
    afterBoth (EventProvider.ecrecoverOf .transparent) sampleGenesis.header 1
    (genesisCertificate.signatures.map Signature.buffer) := by
  intro signature hmem a _ j hj _
  rcases mem_address hj with ⟨rfl, rfl⟩
  rcases List.mem_map.mp hmem with ⟨sign, hsign, -⟩
  rcases evaluated_genesisCertificate with ⟨haddress, hvote, -, -⟩
  refine ⟨.precommit ⟨genesisCertificate.vote, sign⟩, sign, evaluated_afterBoth.2.1 sign hsign,
    haddress sign hsign, ?_⟩
  rw [hvote]

/-- What the observer has committed is what the contract accepts. -/
theorem accepted_agree_afterBoth : ∃ (block : Block) (consensus : Consensus),
    .commitBlock 1 block consensus ∈ (afterBoth false).trace ∧
      block.hash .transparent = sampleGenesis.header.hash .transparent := by
  have hcommitted : ∃ block consensus, .commitBlock 1 block consensus ∈ (afterBoth false).trace := by
    rcases List.any_eq_true.mp evaluated_afterBoth.2.2 with ⟨effect, hmem, hcommit⟩
    split at hcommit
    · exact ⟨_, _, hmem⟩
    · cases hcommit
  rcases hcommitted with ⟨block, consensus, hcommit⟩
  refine ⟨block, consensus, hcommit, ?_⟩
  rcases evaluated_genesisCertificate with ⟨-, -, hverified, hnodup⟩
  exact accepted_agree honestMajority_afterBoth (.committed hcommit)
    (.onChain hverified hnodup (fun _ => rfl) rfl rfl unforgedOnChain_genesis)
    (Crypto.transparent_fromData_ne_zero _) (Crypto.transparent_fromData_ne_zero _)

end Sample

end Nodes

/-! ## The header of the genesis block -/

namespace Synchronizer

section Rooted

variable {c : Crypto} {blockchain : Blockchain} {options : SynchronizerOptions} {s : Synchronizer}
  {event : Event}

/-- The first header that is stored names the validators that the genesis header names. -/
def Rooted (blockchain : Blockchain) (s : Synchronizer) : Prop :=
  s.isReady = true ∨ 0 < s.store.height → ∃ header, s.store.header 1 = some header ∧
    header.nextValidatorSetRoot = blockchain.genesisBlock.header.nextValidatorSetRoot

theorem rooted_init : Rooted blockchain init := by
  rintro (hready | hpos)
  · cases hready
  · cases hpos

theorem Rooted.start (h : Rooted blockchain s) :
    Rooted blockchain (Synchronizer.start c blockchain s.store) := by
  have hheader : (Synchronizer.start c blockchain s.store).store.header =
      (rootedStore blockchain s.store).header := by
    rcases @start_cases c blockchain s.store with ⟨isReady, store', hstart, hstore⟩
    rw [hstart]
    rcases hstore with rfl | ⟨root, -, rfl⟩
    · rfl
    · rfl
  intro _
  rw [hheader]
  unfold rootedStore
  split
  · exact ⟨_, @BlockStore.header_setHeader { s.store with cachedHeight := 0 } 1 _, rfl⟩
  · rename_i hpos
    -- the genesis block is stored again only on an empty chain
    exact h (.inr (Nat.pos_of_ne_zero hpos))

/-- The only header that chaining writes at height 1 names the same validators. -/
theorem Rooted.step (h : Rooted blockchain s) (hcatches : event.catchesUp = false)
    (hguard : ProofGuarded c blockchain options s event) :
    Rooted blockchain (s.step c blockchain options event) := by
  by_cases hstart : event = .start
  · subst hstart
    have hstep : s.step c blockchain options .start = Synchronizer.start c blockchain s.store := by
      cases hready : s.isReady with
      | false => simp only [Synchronizer.step, hready, advance]
      | true => exact step_of_advance_none hready rfl
    rw [hstep]
    exact h.start
  · cases hready : s.isReady with
    | false =>
        have hstep : s.step c blockchain options event = s := by
          unfold Synchronizer.step
          rw [hready]
          cases event with
          | start => exact absurd rfl hstart
          | _ => rfl
        rw [hstep]
        exact h
    | true =>
        rcases h (.inl hready) with ⟨header, hheader, hroot⟩
        intro _
        rw [store_step hstart]
        cases hwritten : s.written c blockchain options event with
        | none => exact ⟨header, hheader, hroot⟩
        | some write =>
            cases write with
            | header k value =>
                by_cases hk : k = 1
                · subst hk
                  refine ⟨value, BlockStore.header_setHeader .., ?_⟩
                  rcases written_cases hwritten hcatches with ⟨bodyFirst, rfl⟩ | ⟨_, _, hset⟩
                  · rw [hguard.first bodyFirst value rfl hwritten header hheader, hroot]
                  · cases hset
                · exact ⟨header, (BlockStore.header_setHeader_of_ne (Ne.symm hk)).trans hheader, hroot⟩
            | _ => exact ⟨header, hheader, hroot⟩

end Rooted

section Hashed

variable {c : Crypto} {blockchain : Blockchain} {options : SynchronizerOptions} {s : Synchronizer}
  {store : BlockStore}

variable (c) in
/-- A validator set is stored under its hash. -/
def SetsHashed (store : BlockStore) : Prop :=
  ∀ root validatorSet, store.validatorSet root = some validatorSet → validatorSet.hash c = .ok root

theorem setsHashed_init : SetsHashed c init.store := nofun

theorem SetsHashed.start (h : SetsHashed c store) :
    SetsHashed c (Synchronizer.start c blockchain store).store :=
  (@accountable_start c blockchain store h).validatorSets

theorem SetsHashed.step (h : SetsHashed c s.store) (event : Event) :
    SetsHashed c (s.step c blockchain options event).store := by
  cases hready : s.isReady with
  | false =>
      -- before `ready` only a start does anything
      unfold Synchronizer.step
      rw [hready]
      split
      · exact h.start
      · exact h
      · rename_i heq
        cases heq
  | true =>
      have hmoves := @step_moves c blockchain options s hready event
      generalize s.step c blockchain options event = s' at hmoves ⊢
      cases hmoves with
      | start => exact h.start
      | @validatorSet validatorSet root hroot =>
          intro root' validatorSet' hstored
          by_cases hsame : root' = root
          · subst hsame
            rw [BlockStore.validatorSet_putValidatorSet] at hstored
            rw [← Option.some.inj hstored]
            exact hroot
          · rw [BlockStore.validatorSet_putValidatorSet_of_ne hsame] at hstored
            exact h root' validatorSet' hstored
      | chainWrites _ _ hwrites =>
          cases hwrites with
          | _ => exact h
      | catchUpWrites _ _ _ hwrites =>
          cases hwrites with
          | _ => exact h
      | _ => exact h

end Hashed

end Synchronizer

/-! ## Chains -/

namespace Nodes

open Synchronizer

section Chains

variable {ι : Type} {c : Crypto} {nodes : Nodes ι} {engines : ι → Engine} {vsOf : Nat → ValidatorSet}
  {blockchain : Blockchain} {options options' : SynchronizerOptions}
  {events events' : List Synchronizer.Event}

variable (c blockchain options events) in
/-- The store of a node after a run. -/
def storeAfter : BlockStore := (Synchronizer.run c blockchain options init events).store

variable (c nodes engines vsOf blockchain options events) in
/-- The run of a node that only chains blocks, by guarded steps, up to a state in which nothing is
being written.  The certificates that it can serve for its chain then are for the height, were not put
together from forged votes, and nobody has signed one twice. -/
structure Follows : Prop where
  chains : ∀ event ∈ events, event.catchesUp = false
  guarded : Along (Synchronizer.step c blockchain options) init events
    (ProofGuarded c blockchain options)
  isReady : (Synchronizer.run c blockchain options init events).isReady = true
  rests : (Synchronizer.run c blockchain options init events).chainingWrites = false
  served : ∀ h consensus, 1 ≤ h → h ≤ (storeAfter c blockchain options events).height →
    Blockchain.consensusOf (storeAfter c blockchain options events) h = .ok consensus →
    consensus.vote.height = h ∧ nodes.UnforgedCertificate c h (vsOf h) engines consensus ∧
      (consensus.signers c (blockchain.genesisHash c)).Nodup ∧
      ∀ header, (storeAfter c blockchain options events).header h = some header →
        header.hash c ≠ Hash.zero

variable (c) in
/-- The hash function has no collision among what two stores have of the heights of both. -/
structure Collisionless (store store' : BlockStore) : Prop where
  headers : ∀ k header header', 1 ≤ k → k ≤ store.height → k ≤ store'.height →
    store.header k = some header → store'.header k = some header' →
    header.hash c = header'.hash c → header = header'
  validatorSets : ∀ k header validatorSet validatorSet', 1 ≤ k → k ≤ store.height →
    k ≤ store'.height → store.header k = some header →
    store.validatorSet header.nextValidatorSetRoot = some validatorSet →
    store'.validatorSet header.nextValidatorSetRoot = some validatorSet' →
    validatorSet.hash c = validatorSet'.hash c → validatorSet = validatorSet'

/-- What a node has of each height: a proof that it can serve. -/
theorem Follows.proofs (h : nodes.Follows c engines vsOf blockchain options events) :
    (Rooted blockchain (Synchronizer.run c blockchain options init events) ∧
      SetsHashed c (storeAfter c blockchain options events)) ∧
      ∀ k, 1 ≤ k → k ≤ (storeAfter c blockchain options events).height →
        ∃ consensus, Blockchain.consensusOf (storeAfter c blockchain options events) k =
            .ok consensus ∧
          Proves c blockchain (storeAfter c blockchain options events) k consensus := by
  let Inv (s : Synchronizer) : Prop :=
    s.Proved c blockchain ∧ Rooted blockchain s ∧ SetsHashed c s.store
  have hboth : Along (Synchronizer.step c blockchain options) init events
      (fun s event => event.catchesUp = false ∧ ProofGuarded c blockchain options s event) := by
    intro before event after hevents
    exact ⟨h.chains event (by simp [hevents]), h.guarded before event after hevents⟩
  have hkept : Throughout (Synchronizer.step c blockchain options) init events Inv := by
    refine hboth.throughout ⟨proved_init, rooted_init, setsHashed_init⟩ ?_
    rintro s event ⟨hproved, hrooted, hhashed⟩ ⟨hcatches, hguard⟩
    exact ⟨hproved.step hcatches hguard, hrooted.step hcatches hguard, hhashed.step event⟩
  obtain ⟨hproved, hrooted, hhashed⟩ : Inv (Synchronizer.run c blockchain options init events) :=
    hkept events [] (List.append_nil events).symm
  refine ⟨⟨hrooted, hhashed⟩, ?_⟩
  -- nothing is being written, so what is served is up to the height of the store
  have hidle : (Synchronizer.run c blockchain options init events).catchUpWrites = false := by
    unfold catchUpWrites
    rw [Option.any_eq_false]
    exact hproved.idle
  have hget : (storeAfter c blockchain options events).getHeight =
      (storeAfter c blockchain options events).height := by
    refine hproved.getHeight ?_
    intro entry hentry
    have hwrites := h.rests
    simp only [chainingWrites, Option.any_eq_false] at hwrites
    by_contra hcaches
    rw [Bool.not_eq_false] at hcaches
    have hnot := hwrites entry hentry
    rw [Chaining.writes_of_caches hcaches] at hnot
    cases hnot
  intro k hpos hle
  exact hproved.servable h.isReady h.rests hidle k hpos (by rw [← hget] at hle; exact hle)

/-- The validators of a height are named by the first header, or by the one before. -/
theorem validatorSet_eq {s s' : Synchronizer} {k : Nat} {validatorSet validatorSet' : ValidatorSet}
    (hcollisionless : Collisionless c s.store s'.store)
    (hrooted : Rooted blockchain s ∧ SetsHashed c s.store)
    (hrooted' : Rooted blockchain s' ∧ SetsHashed c s'.store)
    (hready : s.isReady = true) (hready' : s'.isReady = true) (hpos : 1 ≤ k)
    (hle : k ≤ s.store.height) (hle' : k ≤ s'.store.height)
    (hbefore : ∀ j, 1 ≤ j → j < k → ∃ header, s.store.header j = some header ∧
      s'.store.header j = some header)
    (hset : Blockchain.validatorSetOf s.store k = .ok validatorSet)
    (hset' : Blockchain.validatorSetOf s'.store k = .ok validatorSet') :
    validatorSet = validatorSet' := by
  rcases Blockchain.validatorSetOf_eq_ok.mp hset with ⟨naming, hnaming, hstored⟩
  rcases Blockchain.validatorSetOf_eq_ok.mp hset' with ⟨naming', hnaming', hstored'⟩
  have hdefining : 1 ≤ Blockchain.definingHeight k ∧ Blockchain.definingHeight k ≤ k := by
    unfold Blockchain.definingHeight
    split
    · omega
    · omega
  have hroot : naming'.nextValidatorSetRoot = naming.nextValidatorSetRoot := by
    by_cases hone : k = 1
    · subst hone
      rcases hrooted.1 (.inl hready) with ⟨header, hheader, hroot⟩
      rcases hrooted'.1 (.inl hready') with ⟨header', hheader', hroot'⟩
      obtain rfl := Option.some.inj (hheader.symm.trans hnaming)
      obtain rfl := Option.some.inj (hheader'.symm.trans hnaming')
      rw [hroot, hroot']
    · rw [Blockchain.definingHeight, if_neg hone] at hnaming hnaming'
      rcases hbefore (k - 1) (by omega) (by omega) with ⟨header, hheader, hheader'⟩
      obtain rfl := Option.some.inj (hheader.symm.trans hnaming)
      obtain rfl := Option.some.inj (hheader'.symm.trans hnaming')
      rfl
  rw [hroot] at hstored'
  refine hcollisionless.validatorSets _ naming validatorSet validatorSet' hdefining.1
    (hdefining.2.trans hle) (hdefining.2.trans hle') hnaming hstored hstored' ?_
  rw [hrooted.2 _ _ hstored, hrooted'.2 _ _ hstored']

/-- Two nodes that chain the blocks of one network have the same chain, as far as both go.  The
assumptions: at each height of both chains an honest majority decides, with the validators that the
first node's chain names, and the hash function has no collision among what is stored. -/
theorem chains_agree (hgenesis : blockchain.genesisHash c = nodes.genesisHash c)
    (hfollows : nodes.Follows c engines vsOf blockchain options events)
    (hfollows' : nodes.Follows c engines vsOf blockchain options' events')
    (hmajority : ∀ k, 1 ≤ k → k ≤ (storeAfter c blockchain options events).height →
      k ≤ (storeAfter c blockchain options' events').height →
        nodes.HonestMajority c k (vsOf k) engines)
    (hentered : ∀ k vs, 1 ≤ k → k ≤ (storeAfter c blockchain options events).height →
      Blockchain.validatorSetOf (storeAfter c blockchain options events) k = .ok vs → vs = vsOf k)
    (hcollisionless : Collisionless c (storeAfter c blockchain options events)
      (storeAfter c blockchain options' events'))
    (k : Nat) (hpos : 1 ≤ k) (hle : k ≤ (storeAfter c blockchain options events).height)
    (hle' : k ≤ (storeAfter c blockchain options' events').height) :
    ∃ header, (storeAfter c blockchain options events).header k = some header ∧
      (storeAfter c blockchain options' events').header k = some header := by
  rcases hfollows.proofs with ⟨hrooted, hproofs⟩
  rcases hfollows'.proofs with ⟨hrooted', hproofs'⟩
  induction k using Nat.strong_induction_on with
  | _ k ih =>
      rcases hproofs k hpos hle with ⟨consensus, hserved, header, vs, hheader, hset, hvalid⟩
      rcases hproofs' k hpos hle' with ⟨consensus', hserved', header', vs', hheader', hset', hvalid'⟩
      -- both certificates are by the validators of the height
      have hsame : vs = vs' := by
        refine validatorSet_eq hcollisionless hrooted hrooted' hfollows.isReady hfollows'.isReady hpos
          hle hle' ?_ hset hset'
        intro j hj hlt
        exact ih j hlt hj (by omega) (by omega)
      obtain rfl := hentered k vs hpos hle hset
      subst hsame
      rcases hfollows.served k consensus hpos hle hserved with ⟨hvote, hunforged, hnodup, hnonzero⟩
      rcases hfollows'.served k consensus' hpos hle' hserved' with ⟨hvote', hunforged', hnodup', hnonzero'⟩
      have hzero := hnonzero header hheader
      have hzero' := hnonzero' header' hheader'
      rw [hgenesis] at hvalid hvalid' hnodup hnodup'
      have hhonest := hmajority k hpos hle hle'
      have hhash : header.hash c = header'.hash c :=
        hhonest.eq_of_quorums
          (hhonest.hasQuorum_of_valid hzero hvalid hnodup hvote hunforged)
          (hhonest.hasQuorum_of_valid hzero' hvalid' hnodup' hvote' hunforged')
      obtain rfl := hcollisionless.headers k header header' hpos hle hle' hheader hheader' hhash
      exact ⟨header, hheader, hheader'⟩

end Chains

/-! ### Two nodes that chain the genesis block -/

section Sample

/-- The node has chained the genesis block, and got some of the way with the next. -/
def furtherEvents : List Synchronizer.Event :=
  genesisEvents ++ (chainEvents (pendingCarrying pendingGenesis.consensus)).take 4

theorem carryingEvents_eq_genesis : carryingEvents pendingGenesis.consensus =
    genesisEvents ++ chainEvents (pendingCarrying pendingGenesis.consensus) := by
  unfold carryingEvents
  rfl

theorem carryingEvents_eq_further : carryingEvents pendingGenesis.consensus =
    furtherEvents ++ (chainEvents (pendingCarrying pendingGenesis.consensus)).drop 4 := by
  unfold carryingEvents furtherEvents
  rw [List.append_assoc, List.take_append_drop]

/-- What the nodes have after their runs. -/
def HasGenesis (events : List Synchronizer.Event) : Prop :=
  ((Synchronizer.run .transparent sampleChain sampleOptions init events).isReady = true ∧
    (Synchronizer.run .transparent sampleChain sampleOptions init events).chainingWrites = false ∧
    (storeAfter .transparent sampleChain sampleOptions events).height = 1) ∧
  (Blockchain.consensusOf (storeAfter .transparent sampleChain sampleOptions events) 1).toOption =
    some genesisCertificate ∧
  (storeAfter .transparent sampleChain sampleOptions events).header 1 = some sampleGenesis.header ∧
  (storeAfter .transparent sampleChain sampleOptions events).validatorSet
    sampleGenesis.header.nextValidatorSetRoot = some soleValidatorSet

instance (events : List Synchronizer.Event) : Decidable (HasGenesis events) := by
  unfold HasGenesis
  infer_instance

/-- Both nodes have it, for the genesis block on which the engines above decided. -/
theorem evaluated_chains : (HasGenesis genesisEvents ∧ HasGenesis furtherEvents) ∧
    (genesisCertificate.signers .transparent (sampleChain.genesisHash .transparent)).Nodup ∧
    sampleChain.genesisHash .transparent = validatorAndObserver.genesisHash .transparent := by
  decide +kernel

/-- Such a node serves the certificate with which the block was chained. -/
theorem follows_of_served {events later : List Synchronizer.Event}
    (hevents : carryingEvents pendingGenesis.consensus = events ++ later)
    (hrests : (Synchronizer.run .transparent sampleChain sampleOptions init events).isReady = true ∧
      (Synchronizer.run .transparent sampleChain sampleOptions init events).chainingWrites = false ∧
      (storeAfter .transparent sampleChain sampleOptions events).height = 1)
    (hserved : (Blockchain.consensusOf (storeAfter .transparent sampleChain sampleOptions events)
      1).toOption = some genesisCertificate) :
    validatorAndObserver.Follows .transparent afterBoth (fun _ => soleValidatorSet) sampleChain
      sampleOptions events := by
  have hguarded := proofGuarded_carryingEvents
  rw [hevents] at hguarded
  refine ⟨?_, hguarded.of_append, hrests.1, hrests.2.1, ?_⟩
  · intro event hmem
    refine catchesUp_carryingEvents pendingGenesis.consensus event ?_
    rw [hevents]
    exact List.mem_append_left _ hmem
  · intro h consensus hpos hle hconsensus
    rw [hrests.2.2] at hle
    obtain rfl : h = 1 := Nat.le_antisymm hle hpos
    rw [hconsensus] at hserved
    obtain rfl : consensus = genesisCertificate := Option.some.inj hserved
    refine ⟨rfl, unforged_genesisCertificate, evaluated_chains.2.1, ?_⟩
    intro header _
    exact Crypto.transparent_fromData_ne_zero _

/-- One node is further than the other, and both have the genesis block. -/
theorem chains_agree_genesis :
    ∃ header, (storeAfter .transparent sampleChain sampleOptions genesisEvents).header 1 =
        some header ∧
      (storeAfter .transparent sampleChain sampleOptions furtherEvents).header 1 = some header := by
  rcases evaluated_chains with ⟨⟨hfirst, hsecond⟩, -, hgenesis⟩
  rcases hfirst with ⟨hrests, hserved, hheader, hset⟩
  rcases hsecond with ⟨hrests', hserved', hheader', hset'⟩
  have hfollows := follows_of_served carryingEvents_eq_genesis hrests hserved
  have hfollows' := follows_of_served carryingEvents_eq_further hrests' hserved'
  have hone : ∀ {k}, 1 ≤ k →
      k ≤ (storeAfter .transparent sampleChain sampleOptions genesisEvents).height → k = 1 := by
    intro k hpos hle
    rw [hrests.2.2] at hle
    exact Nat.le_antisymm hle hpos
  refine chains_agree hgenesis hfollows hfollows' ?_ ?_ ⟨?_, ?_⟩ 1 le_rfl (by rw [hrests.2.2])
    (by rw [hrests'.2.2])
  · intro k hpos hle _
    obtain rfl := hone hpos hle
    exact honestMajority_afterBoth
  · intro k vs hpos hle hvs
    obtain rfl := hone hpos hle
    rcases Blockchain.validatorSetOf_eq_ok.mp hvs with ⟨naming, hnaming, hvs⟩
    rw [Blockchain.definingHeight, if_pos rfl] at hnaming
    obtain rfl := Option.some.inj (hheader.symm.trans hnaming)
    exact Option.some.inj (hvs.symm.trans hset)
  · intro k header header' hpos hle _ hstored hstored' _
    obtain rfl := hone hpos hle
    rw [← Option.some.inj (hheader.symm.trans hstored),
      ← Option.some.inj (hheader'.symm.trans hstored')]
  · intro k header vs vs' hpos hle _ hstored hvs hvs' _
    obtain rfl := hone hpos hle
    obtain rfl := Option.some.inj (hheader.symm.trans hstored)
    rw [Option.some.inj (hvs.symm.trans hset), Option.some.inj (hvs'.symm.trans hset')]

end Sample

end Nodes

end ChainCore
end UniqysKit
