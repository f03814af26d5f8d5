import UniqysKit.ChainCore.EngineTrace
import UniqysKit.Library.Voting

/-!
# Agreement at a height

Any number of honest nodes, each running an engine.  Messages can be lost, doubled, delayed and made
up; what cannot be made up is a vote of a validator that an honest node runs.  Then the engines'
votes obey the rules of `Library.Locking`, and no two honest nodes commit different blocks at a
height.
-/

namespace UniqysKit
namespace ChainCore

open Library

/-! ## What is signed -/

/-- `MessageType`, the byte that tells the kinds of messages apart. -/
def label : ConsensusMessage → Nat
  | .proposal _ => 0
  | .prevote _ => VoteType.prevote.label
  | .precommit _ => VoteType.precommit.label

def payload : ConsensusMessage → Result Bytes
  | .proposal msg => msg.proposal.serialize
  | .prevote msg => msg.vote.serialize
  | .precommit msg => msg.vote.serialize

/-- The bytes of which the digest is signed. -/
def signedData (genesis : Hash) (msg : ConsensusMessage) : Result Bytes := do
  return genesis.serialize ++ (← UInt8.serialize (label msg)) ++ (← payload msg)

def signerAddress (c : Crypto) (genesis : Hash) : ConsensusMessage → Result Address
  | .proposal msg => msg.signerAddress c genesis
  | .prevote msg => msg.signerAddress c genesis
  | .precommit msg => msg.signerAddress c genesis

def signatureOf : ConsensusMessage → Signature
  | .proposal msg => msg.sign
  | .prevote msg => msg.sign
  | .precommit msg => msg.sign

/-- The signer is recovered from the signature and the hash of the signed data. -/
theorem signerAddress_eq (c : Crypto) (genesis : Hash) (msg : ConsensusMessage) :
    signerAddress c genesis msg = (do
      signerOf c (signatureOf msg) (Hash.fromData c (← signedData genesis msg))) := by
  cases msg with
  | proposal msg =>
      simp only [signerAddress, ProposalMessage.signerAddress, ProposalMessage.digest, signedData,
        label, payload, signatureOf, bind_assoc, pure_bind]
  | prevote msg =>
      simp only [signerAddress, VoteMessage.signerAddress, VoteMessage.digest, signedData,
        label, payload, signatureOf, bind_assoc, pure_bind]
  | precommit msg =>
      simp only [signerAddress, VoteMessage.signerAddress, VoteMessage.digest, signedData,
        label, payload, signatureOf, bind_assoc, pure_bind]

/-- The bytes of a vote give the vote. -/
theorem serialize_vote_injective {vote vote' : Vote} {bytes : Bytes}
    (h : vote.serialize = .ok bytes) (h' : vote'.serialize = .ok bytes) : vote = vote' := by
  have hread : ∀ {v : Vote}, v.serialize = .ok bytes → ∃ rest,
      UInt64.deserialize bytes = .ok (v.height, rest) ∧
        UInt32.deserialize rest = .ok (v.round, v.blockHash.serialize) := by
    intro v hv
    simp only [Vote.serialize, Result.bind_eq_ok] at hv
    rcases hv with ⟨height, hheight, round, hround, hbytes⟩
    cases hbytes
    refine ⟨round ++ v.blockHash.serialize, ?_, UInt32.deserialize_append hround _⟩
    rw [List.append_assoc]
    exact UInt64.deserialize_append hheight _
  rcases hread h with ⟨rest, hheight, hround⟩
  rcases hread h' with ⟨rest', hheight', hround'⟩
  rw [hheight] at hheight'
  rcases Prod.mk.inj (Except.ok.inj hheight') with ⟨hheight, rfl⟩
  rw [hround] at hround'
  rcases Prod.mk.inj (Except.ok.inj hround') with ⟨hround, hhash⟩
  cases vote
  cases vote'
  simp only at hheight hround hhash
  rw [hheight, hround, Hash.ext hhash]

theorem signedData_eq_ok {genesis : Hash} {msg : ConsensusMessage} {bytes : Bytes}
    (h : signedData genesis msg = .ok bytes) :
    ∃ rest, payload msg = .ok rest ∧ bytes = genesis.buffer ++ (UInt8.ofNat (label msg) :: rest) := by
  simp only [signedData, Result.bind_eq_ok] at h
  rcases h with ⟨labelBytes, hlabel, rest, hpayload, hbytes⟩
  have hbyte : labelBytes = [UInt8.ofNat (label msg)] := by
    cases msg with
    | proposal msg => cases hlabel; simp [BigEndian.toBytes]
    | prevote msg => cases hlabel; simp [BigEndian.toBytes]
    | precommit msg => cases hlabel; simp [BigEndian.toBytes]
  cases hbytes
  refine ⟨rest, hpayload, ?_⟩
  rw [hbyte, List.append_assoc]
  rfl

/-- The label byte tells the kinds of messages apart, so the data of a vote gives the vote. -/
theorem eq_of_signedData {genesis : Hash} {type : VoteType} {vote : VoteMessage type}
    {sent : ConsensusMessage} {bytes : Bytes}
    (h : signedData genesis (voteMessage vote) = .ok bytes) (h' : signedData genesis sent = .ok bytes) :
    ∃ vote' : VoteMessage type, sent = voteMessage vote' ∧ vote'.vote = vote.vote := by
  rcases signedData_eq_ok h with ⟨rest, hpayload, hbytes⟩
  rcases signedData_eq_ok h' with ⟨rest', hpayload', hbytes'⟩
  rcases List.cons.inj (List.append_cancel_left (hbytes.symm.trans hbytes')) with ⟨hlabel, rfl⟩
  cases type with
  | prevote =>
      cases sent with
      | proposal msg => cases hlabel
      | prevote msg => exact ⟨msg, rfl, serialize_vote_injective hpayload' hpayload⟩
      | precommit msg => cases hlabel
  | precommit =>
      cases sent with
      | proposal msg => cases hlabel
      | prevote msg => cases hlabel
      | precommit msg => exact ⟨msg, rfl, serialize_vote_injective hpayload' hpayload⟩

/-! ## One engine, before it was started -/

section New

variable {c : Crypto} {h : Nat} {vs : ValidatorSet}

theorem EntersOnce.of_isPrefix {trace trace' : List Effect} (honce : EntersOnce h vs trace')
    (hgrows : trace <+: trace') : EntersOnce h vs trace :=
  (hgrows.filterMap _).trans honce

theorem not_cast_new {initialValidatorSet : ValidatorSet} {genesis : Hash} {type : VoteType}
    {a : Address} {vote : Vote} :
    ¬ Cast c genesis (Engine.new c initialValidatorSet).trace type a vote := by
  rintro ⟨msg, hmem, -⟩
  cases List.mem_singleton.mp hmem

/-- The invariant holds of an engine that was not started yet. -/
theorem inv_new {config : Config} {initialValidatorSet : ValidatorSet}
    (honce : EntersOnce h vs (Engine.new c initialValidatorSet).trace) :
    (Engine.new c initialValidatorSet).Inv c config h vs := by
  refine ⟨⟨?_, ?_, ?_, ?_⟩, ?_, ?_, nofun⟩
  · intro type a round b b' hcast
    exact absurd hcast not_cast_new
  · intro a _ round b _ hcast
    exact absurd hcast not_cast_new
  · intro a _ round round' b b' _ _ hcast
    exact absurd hcast not_cast_new
  · intro block consensus hmem
    cases List.mem_singleton.mp hmem
  · intro hentered
    refine ⟨?_, fun type a round b => not_cast_new⟩
    rintro rfl
    cases hentered
  · rintro rfl
    -- an engine starts at height 0, with no validators
    obtain rfl : (⟨[]⟩ : ValidatorSet) = vs := (List.cons_prefix_cons.mp honce).1
    have hnew : (Engine.new c initialValidatorSet).state = (State.new c).newHeight 0 Hash.zero ⟨[]⟩
        Hash.zero (MerkleTree.root c []) := rfl
    rw [hnew]
    exact Current.newHeight fun type a round b => not_cast_new

end New

/-! ## The nodes -/

/-- The honest nodes. They share the chain, and each may have a key. -/
structure Nodes (ι : Type) where
  genesisBlock : Block
  keyPair : ι → Option KeyPair
  allowBlockTimestampError : ι → Nat

namespace Nodes

variable {ι : Type} (c : Crypto) (nodes : Nodes ι)

def config (i : ι) : Config :=
  ⟨nodes.genesisBlock, nodes.keyPair i, nodes.allowBlockTimestampError i⟩

/-- The address of a node's key. -/
def address (i : ι) : Option Address := (nodes.config i).address c

def genesisHash : Hash := nodes.genesisBlock.hash c

variable (h : Nat) (vs : ValidatorSet)

/-- Signatures are unforgeable: a vote of the height that is attributed to a validator with an
honest node has the data of a message that this node has signed and sent. -/
def Unforged (engines : ι → Engine) (msg : ConsensusMessage) : Prop :=
  ∀ (type : VoteType) (vote : VoteMessage type), msg = voteMessage vote → vote.vote.height = h →
    ∀ j, ∀ a ∈ nodes.address c j, 0 < vs.weight a →
      vote.signerAddress c (nodes.genesisHash c) = .ok a →
        ∃ sent, .gossip sent ∈ (engines j).trace ∧
          signerAddress c (nodes.genesisHash c) sent = .ok a ∧
          signedData (nodes.genesisHash c) sent = signedData (nodes.genesisHash c) msg

/-- The states of the engines that a run leads to. Each step is an event at one of the nodes. -/
inductive Reachable : (ι → Engine) → Prop
  | new (initialValidatorSet : ι → ValidatorSet) :
      Reachable fun i => Engine.new c (initialValidatorSet i)
  | step {engines engines' : ι → Engine} (i : ι) (event : Event) : Reachable engines →
      (∀ msg, event.message = some msg → nodes.Unforged c h vs engines msg) →
      engines' i = (engines i).step c (nodes.config i) event →
      (∀ j, j ≠ i → engines' j = engines j) → Reachable engines'

variable {c nodes h vs} {engines : ι → Engine}

/-! ## The invariant of all nodes -/

variable (c nodes h vs) in
/-- What holds of all nodes together: each keeps its invariant, and what counts as a vote of a node
was sent by that node. -/
structure Safe (engines : ι → Engine) : Prop where
  inv : ∀ i, (engines i).Inv c (nodes.config i) h vs
  sent : ∀ i j, ∀ a ∈ nodes.address c j, 0 < vs.weight a → ∀ type round b,
    Cast c (nodes.genesisHash c) (engines i).trace type a ⟨h, round, b⟩ →
      Cast c (nodes.genesisHash c) (engines j).trace type a ⟨h, round, b⟩

/-- An unforged vote was cast by its signer. -/
theorem Unforged.cast {type : VoteType} {vote : VoteMessage type}
    (hunforged : nodes.Unforged c h vs engines (voteMessage vote)) (hheight : vote.vote.height = h)
    {j : ι} {a : Address} (ha : a ∈ nodes.address c j) (hweight : 0 < vs.weight a)
    (hsigner : vote.signerAddress c (nodes.genesisHash c) = .ok a) :
    Cast c (nodes.genesisHash c) (engines j).trace type a vote.vote := by
  rcases hunforged type vote rfl hheight j a ha hweight hsigner with ⟨sent, hmem, hsent, hdata⟩
  -- a signer could be recovered, so there is data that was signed
  rw [signerAddress_eq, Result.bind_eq_ok] at hsent
  rcases hsent with ⟨bytes, hbytes, hsent⟩
  rcases eq_of_signedData (hdata.symm.trans hbytes) hbytes with ⟨vote', rfl, hvote⟩
  have hsigner' : signerAddress c (nodes.genesisHash c) (voteMessage vote') = .ok a := by
    rw [signerAddress_eq, hbytes]
    exact hsent
  refine ⟨vote', hmem, ?_, hvote⟩
  cases type with
  | prevote => exact hsigner'
  | precommit => exact hsigner'

theorem Unforged.genuine {msg : ConsensusMessage} (hunforged : nodes.Unforged c h vs engines msg)
    (i : ι) : Genuine c (nodes.config i) h vs (engines i) msg := by
  rintro type vote rfl hheight a ha hweight hsigner
  exact hunforged.cast hheight ha hweight hsigner

theorem Reachable.safe (hreach : nodes.Reachable c h vs engines)
    (hkeys : ∀ i j a, a ∈ nodes.address c i → a ∈ nodes.address c j → 0 < vs.weight a → i = j)
    (honce : ∀ i, EntersOnce h vs (engines i).trace) : nodes.Safe c h vs engines := by
  induction hreach with
  | new initialValidatorSet =>
      refine ⟨fun i => inv_new (honce i), ?_⟩
      intro i j a _ _ type round b hcast
      exact absurd hcast not_cast_new
  | @step engines engines' i event _ hunforged hstep hframe ih =>
      have hgrows := hstep ▸ trace_step (c := c) (engines i) event
      -- every trace has grown, if at all
      have hgrown : ∀ j, (engines j).trace <+: (engines' j).trace := by
        intro j
        by_cases hij : j = i
        · subst hij
          exact hgrows.1
        · rw [hframe j hij]
      have hsafe := ih fun j => (honce j).of_isPrefix (hgrown j)
      refine ⟨?_, ?_⟩
      · intro j
        by_cases hij : j = i
        · subst hij
          rw [hstep]
          refine (hsafe.inv j).step event ?_ (hstep ▸ honce j)
          rintro msg rfl
          exact (hunforged msg rfl).genuine j
        · rw [hframe j hij]
          exact hsafe.inv j
      · intro k j a ha hweight type round b hcast
        suffices hbefore : Cast c (nodes.genesisHash c) (engines j).trace type a ⟨h, round, b⟩ ∨
            Cast c (nodes.genesisHash c) (engines' j).trace type a ⟨h, round, b⟩ by
          exact hbefore.elim (fun hold => hold.mono (hgrown j).subset) id
        by_cases hik : k = i
        · subst hik
          rcases hcast with ⟨msg, hmem, hsigner, hvote⟩
          rcases hgrows.2 _ hmem with hold | hreceived | hours
          · exact .inl (hsafe.sent k j a ha hweight type round b ⟨msg, hold, hsigner, hvote⟩)
          · refine .inl (hvote ▸ (hunforged _ hreceived).cast ?_ ha hweight hsigner)
            rw [hvote]
          · -- the node signs with its own key, so it is the node of the address
            rcases hours type msg rfl with ⟨a', ha', hsigner'⟩
            obtain rfl : a = a' := Except.ok.inj (hsigner.symm.trans hsigner')
            obtain rfl := hkeys k j a ha' ha hweight
            exact .inr ⟨msg, hmem, hsigner, hvote⟩
        · rw [hframe k hik] at hcast
          exact .inl (hsafe.sent k j a ha hweight type round b hcast)

/-! ## Agreement -/

section Agreement

variable (hbyzantine : ∀ members : Finset Address, (∀ a ∈ members, ∀ i, a ∉ nodes.address c i) →
  (∑ a ∈ members, vs.weight a) * 3 ≤ vs.powerSum)

/-- The validators of the height. Those without an honest node are not bound by anything. -/
def electorate : Electorate Address where
  weight := vs.weight
  total := vs.powerSum
  Faulty a := ∀ i, a ∉ nodes.address c i
  weight_le := vs.sum_weight_le
  faulty_le := hbyzantine

variable (c nodes h vs engines) in
/-- The honest node of the validator has voted for the block. -/
def Voted (type : VoteType) (round : Nat) (b : Hash) (a : Address) : Prop :=
  b ≠ Hash.zero ∧ 0 < vs.weight a ∧ ∃ i, a ∈ nodes.address c i ∧
    Cast c (nodes.genesisHash c) (engines i).trace type a ⟨h, round, b⟩

/-- The majority that one node has seen is one of votes that the honest nodes have sent. -/
theorem Safe.hasQuorum (hsafe : nodes.Safe c h vs engines) (hexact : vs.ExactMajorities) {i : ι}
    {type : VoteType} {round : Nat} {b : Hash} (hb : b ≠ Hash.zero)
    (hseen : Seen c (nodes.genesisHash c) h vs (engines i).trace type round b) :
    (electorate hbyzantine).HasQuorum (nodes.Voted c h vs engines type round b) := by
  rcases hseen with ⟨voters, hnodup, hpasses, hcast⟩
  refine ⟨voters.toFinset.filter fun a => 0 < vs.weight a, ?_, ?_⟩
  · -- voters without power add nothing to the sum
    have hpos : ∑ a ∈ voters.toFinset.filter (fun a => 0 < vs.weight a), vs.weight a =
        ∑ a ∈ voters.toFinset, vs.weight a := by
      refine Finset.sum_filter_of_ne ?_
      intro a _ hne
      exact Nat.pos_of_ne_zero hne
    have hmajority := hexact voters hnodup hpasses
    rwa [← hpos] at hmajority
  · intro a ha
    rcases Finset.mem_filter.mp ha with ⟨hvoter, hweight⟩
    have hvoted := hcast a (List.mem_toFinset.mp hvoter)
    by_cases hhonest : ∃ j, a ∈ nodes.address c j
    · rcases hhonest with ⟨j, hj⟩
      exact .inr ⟨hb, hweight, j, hj, hsafe.sent i j a hj hweight type round b hvoted⟩
    · exact .inl (not_exists.mp hhonest)

/-- The votes of the honest nodes keep to the rules of locking. -/
theorem Safe.locking (hsafe : nodes.Safe c h vs engines) (hexact : vs.ExactMajorities)
    (hkeys : ∀ i j a, a ∈ nodes.address c i → a ∈ nodes.address c j → 0 < vs.weight a → i = j) :
    Locking (electorate hbyzantine) (nodes.Voted c h vs engines .prevote)
      (nodes.Voted c h vs engines .precommit) := by
  refine ⟨?_, ?_, ?_⟩
  · rintro a round b b' - ⟨-, hweight, i, hi, hcast⟩ ⟨-, -, j, hj, hcast'⟩
    obtain rfl := hkeys i j a hi hj hweight
    exact (hsafe.inv i).rules.once .prevote a round b b' hcast hcast'
  · rintro a round b - ⟨hb, hweight, i, hi, hcast⟩
    exact hsafe.hasQuorum hbyzantine hexact hb
      ((hsafe.inv i).rules.justified a hi round b hb hcast)
  · rintro a round round' b b' - ⟨hb, hweight, i, hi, hcast⟩ ⟨hb', -, j, hj, hcast'⟩ hlt
    obtain rfl := hkeys i j a hi hj hweight
    obtain ⟨since, hle, hlt', hseen⟩ :=
      (hsafe.inv i).rules.locked a hi round round' b b' hb hb' hcast hcast' hlt
    exact ⟨since, hle, hlt', hsafe.hasQuorum hbyzantine hexact hb' hseen⟩

end Agreement

/-- No two honest nodes commit different blocks at a height where rounding makes no majority.  The
assumptions: no two nodes share a validator's key, the validators without an honest node hold a
third of the power at most, and each node enters the height once, with the same validator set. -/
theorem agreement {ι : Type} {c : Crypto} {nodes : Nodes ι} {h : Nat} {vs : ValidatorSet}
    {engines : ι → Engine} (hreach : nodes.Reachable c h vs engines) (hexact : vs.ExactMajorities)
    (hkeys : ∀ i j a, a ∈ nodes.address c i → a ∈ nodes.address c j → 0 < vs.weight a → i = j)
    (hbyzantine : ∀ members : Finset Address, (∀ a ∈ members, ∀ i, a ∉ nodes.address c i) →
      (∑ a ∈ members, vs.weight a) * 3 ≤ vs.powerSum)
    (honce : ∀ i, EntersOnce h vs (engines i).trace)
    {i j : ι} {block block' : Block} {consensus consensus' : Consensus}
    (hcommit : .commitBlock h block consensus ∈ (engines i).trace)
    (hcommit' : .commitBlock h block' consensus' ∈ (engines j).trace)
    (hzero : block.hash c ≠ Hash.zero) (hzero' : block'.hash c ≠ Hash.zero) :
    block.hash c = block'.hash c := by
  have hsafe := hreach.safe hkeys honce
  rcases (hsafe.inv i).rules.committed block consensus hcommit with ⟨round, hseen⟩
  rcases (hsafe.inv j).rules.committed block' consensus' hcommit' with ⟨round', hseen'⟩
  exact (hsafe.locking hbyzantine hexact hkeys).decided_eq
    (hsafe.hasQuorum hbyzantine hexact hzero hseen) (hsafe.hasQuorum hbyzantine hexact hzero' hseen')

/-! ## A run of two nodes -/

theorem Unforged.mono {engines' : ι → Engine} {msg : ConsensusMessage}
    (hunforged : nodes.Unforged c h vs engines msg)
    (hsub : ∀ i, (engines i).trace ⊆ (engines' i).trace) : nodes.Unforged c h vs engines' msg := by
  intro type vote heq hheight j a ha hweight hsigner
  rcases hunforged type vote heq hheight j a ha hweight hsigner with ⟨sent, hmem, hsent⟩
  exact ⟨sent, hsub j hmem, hsent⟩

/-- A message that its signer has sent itself is no forgery of its vote. -/
theorem unforged_of_mem {msg : ConsensusMessage}
    (hmem : ∀ j, ∀ a ∈ nodes.address c j, signerAddress c (nodes.genesisHash c) msg = .ok a →
      .gossip msg ∈ (engines j).trace) :
    nodes.Unforged c h vs engines msg := by
  rintro type vote rfl - j a ha - hsigner
  have hsigner' : signerAddress c (nodes.genesisHash c) (voteMessage vote) = .ok a := by
    cases type with
    | prevote => exact hsigner
    | precommit => exact hsigner
  exact ⟨voteMessage vote, hmem j a ha hsigner', hsigner', rfl⟩

theorem trace_run {config : Config} (engine : Engine) (events : List Event) :
    engine.trace <+: (engine.run c config events).trace := by
  induction events generalizing engine with
  | nil => exact List.prefix_refl _
  | cons event events ih => exact (trace_step engine event).1.trans (ih _)

variable [DecidableEq ι]

/-- Events at one node, of which the messages could come from the others before. -/
theorem Reachable.run (hreach : nodes.Reachable c h vs engines) (i : ι) (events : List Event)
    (hunforged : ∀ event ∈ events, ∀ msg, event.message = some msg →
      nodes.Unforged c h vs engines msg) :
    nodes.Reachable c h vs
      (Function.update engines i ((engines i).run c (nodes.config i) events)) := by
  induction events generalizing engines with
  | nil => rwa [Engine.run, List.foldl_nil, Function.update_eq_self]
  | cons event events ih =>
      let engines' := Function.update engines i ((engines i).step c (nodes.config i) event)
      have hself : engines' i = (engines i).step c (nodes.config i) event :=
        Function.update_self ..
      have hnext : nodes.Reachable c h vs engines' :=
        hreach.step i event (hunforged event List.mem_cons_self) hself
          fun j hj => Function.update_of_ne hj ..
      -- traces only grow, so a message that is not forged now is not forged later
      have hsub : ∀ j, (engines j).trace ⊆ (engines' j).trace := by
        intro j
        by_cases hij : j = i
        · subst hij
          rw [hself]
          exact (trace_step (engines j) event).1.subset
        · rw [show engines' j = engines j from Function.update_of_ne hij ..]
          exact List.Subset.refl _
      have hrest := ih hnext fun event' hmem msg hmsg =>
        (hunforged event' (List.mem_cons_of_mem _ hmem) msg hmsg).mono hsub
      rwa [hself, Function.update_idem] at hrest

/-- Events at some of the nodes, of which the messages could come from the others before. -/
theorem Reachable.runEach (hreach : nodes.Reachable c h vs engines) (events : ι → List Event)
    (hunforged : ∀ i, ∀ event ∈ events i, ∀ msg, event.message = some msg →
      nodes.Unforged c h vs engines msg) {running : List ι} (hnodup : running.Nodup) :
    nodes.Reachable c h vs fun i =>
      if i ∈ running then (engines i).run c (nodes.config i) (events i) else engines i := by
  induction running with
  | nil => simpa using hreach
  | cons i running ih =>
      rcases List.nodup_cons.mp hnodup with ⟨hfresh, hnodup⟩
      have hrun := (ih hnodup).run i (events i) ?_
      · refine (congrArg _ (funext ?_)).mp hrun
        intro j
        by_cases hij : j = i
        · subst hij
          simp [hfresh]
        · simp [hij]
      · intro event hmem msg hmsg
        refine (hunforged i event hmem msg hmsg).mono ?_
        intro j
        split
        · exact (trace_run (engines j) (events j)).subset
        · exact List.Subset.refl _

section Sample

/-- The validator, and a node that only looks on. -/
def validatorAndObserver : Nodes Bool where
  genesisBlock := sampleGenesis
  keyPair validator := if validator then some (Consensus.sampleKey 1) else none
  allowBlockTimestampError _ := 1000

def sampleWorld : World := ⟨fun _ => .error ⟨"block not found"⟩, 0⟩

def enterFirstHeight : List Event :=
  [.setNewHeight 1 Hash.zero soleValidatorSet Hash.zero Hash.zero, .acquire sampleWorld, .start]

/-- The loop goes on, behind the tasks that are waiting for the lock. -/
def proceed (waiting : Nat) : List Event :=
  .loop :: List.replicate (waiting + 1) (.acquire sampleWorld)

def validatorRun : List Event :=
  enterFirstHeight ++ proceed 0 ++ [.resume (.transactions none), .resume .done] ++
    proceed 0 ++ [.resume .done] ++ proceed 2 ++ [.resume .done] ++ proceed 1

def validatorAfter : Engine :=
  (Engine.new .transparent soleValidatorSet).run .transparent (validatorAndObserver.config true)
    validatorRun

/-- What the validator has sent. -/
def validatorMessages : List ConsensusMessage :=
  validatorAfter.trace.filterMap fun
    | .gossip msg => some msg
    | _ => none

def observerRun : List Event :=
  enterFirstHeight ++ validatorMessages.map .newConsensusMessage ++ proceed 3 ++
    proceed 0 ++ [.resume .done] ++ proceed 0 ++ [.resume .done] ++ proceed 0

def observerAfter : Engine :=
  (Engine.new .transparent soleValidatorSet).run .transparent (validatorAndObserver.config false)
    observerRun

def afterBoth (validator : Bool) : Engine := if validator then validatorAfter else observerAfter

/-- Only the validator has a key. -/
theorem mem_address {a : Address} {validator : Bool}
    (ha : a ∈ validatorAndObserver.address .transparent validator) :
    validator = true ∧ a = (Consensus.sampleKey 1).address .transparent := by
  cases validator with
  | true => exact ⟨rfl, (Option.some.inj ha).symm⟩
  | false => cases ha

theorem reachable_afterBoth :
    validatorAndObserver.Reachable .transparent 1 soleValidatorSet afterBoth := by
  have hnew : validatorAndObserver.Reachable .transparent 1 soleValidatorSet
      fun _ => Engine.new .transparent soleValidatorSet := .new fun _ => soleValidatorSet
  -- the validator runs without any message, then the observer gets what the validator has sent
  have hvalidator := hnew.run true validatorRun ?_
  · have hobserver := hvalidator.run false observerRun ?_
    · refine (congrArg _ (funext ?_)).mp hobserver
      intro validator
      cases validator with
      | true => rfl
      | false => rfl
    · intro event hmem msg hmsg
      refine unforged_of_mem ?_
      intro j a ha _
      rcases mem_address ha with ⟨rfl, -⟩
      have hsent : (observerRun.all fun event => event.message.all fun msg =>
          decide (.gossip msg ∈ validatorAfter.trace)) = true := by decide +kernel
      have hevent := List.all_eq_true.mp hsent event hmem
      rw [hmsg, Option.all_some, decide_eq_true_iff] at hevent
      rw [Function.update_self]
      exact hevent
  · intro event hmem msg hmsg
    have hnone : (validatorRun.all fun event => event.message.isNone) = true := by decide +kernel
    have hevent := List.all_eq_true.mp hnone event hmem
    rw [hmsg] at hevent
    cases hevent

/-- The validator commits alone, and the observer after it, by the validator's messages. -/
theorem agreement_afterBoth : ∃ (block block' : Block) (consensus consensus' : Consensus),
    .commitBlock 1 block consensus ∈ (afterBoth true).trace ∧
      .commitBlock 1 block' consensus' ∈ (afterBoth false).trace ∧
      block.hash .transparent = block'.hash .transparent := by
  -- each of the two has committed some block: the runs are evaluated for that
  have hcommitted : ∀ validator, ∃ block consensus,
      .commitBlock 1 block consensus ∈ (afterBoth validator).trace := by
    have hany : ∀ validator, ((afterBoth validator).trace.any fun
        | .commitBlock 1 _ _ => true
        | _ => false) = true := by decide +kernel
    intro validator
    rcases List.any_eq_true.mp (hany validator) with ⟨effect, hmem, hcommit⟩
    split at hcommit
    · exact ⟨_, _, hmem⟩
    · cases hcommit
  rcases hcommitted true with ⟨block, consensus, hcommit⟩
  rcases hcommitted false with ⟨block', consensus', hcommit'⟩
  refine ⟨block, block', consensus, consensus', hcommit, hcommit', ?_⟩
  refine agreement reachable_afterBoth (ValidatorSet.exactMajorities_of_le (by decide)) ?_ ?_ ?_
    hcommit hcommit'
    (Crypto.transparent_fromData_ne_zero _) (Crypto.transparent_fromData_ne_zero _)
  · intro i j a hi hj _
    rw [(mem_address hi).1, (mem_address hj).1]
  · intro members hmembers
    -- the members that do not follow the rules have no power here
    have hsum : ∑ a ∈ members, soleValidatorSet.weight a = 0 := by
      refine Finset.sum_eq_zero ?_
      intro a ha
      by_contra hne
      have hlisted := mem_of_weight_pos (Nat.pos_of_ne_zero hne)
      obtain rfl := List.mem_singleton.mp hlisted
      exact hmembers _ ha true rfl
    rw [hsum]
    exact Nat.zero_le _
  · have hentered : ∀ validator, entered 1 (afterBoth validator).trace = [soleValidatorSet] := by
      decide +kernel
    intro validator
    rw [EntersOnce, hentered]

end Sample

/-! ### Powers that are rounded -/

section Rounded

def splitKey (n : Nat) : KeyPair := Consensus.sampleKey (UInt8.ofNat (n + 1))

/-- The first 22 validators are honest, in two halves of equal power. -/
def splitPower (n : Nat) : Nat :=
  if 33 ≤ n then 1
  else if n = 32 then 187649984473776
  else if n % 11 = 10 then 187649984473783
  else 2 ^ 48 - 1

/-- The powers add up to `2 ^ 53 + 4`, and as doubles to `2 ^ 53`, since the last four are lost. -/
def splitValidatorSet : ValidatorSet :=
  ⟨(List.range' 22 11 ++ List.range 22 ++ List.range' 33 4).map fun n =>
    ⟨(splitKey n).address .transparent, splitPower n⟩⟩

def splitNodes : Nodes (Fin 22) where
  genesisBlock := sampleGenesis
  keyPair i := some (splitKey i)
  allowBlockTimestampError _ := 1000

def splitGenesis : Hash := sampleGenesis.hash .transparent

/-- Whether the node belongs to the first half. -/
def isFirst (i : Fin 22) : Bool := i < 11

def blockAt (timestamp : Nat) : Block :=
  match Block.construct .transparent 2 timestamp splitGenesis Hash.zero Hash.zero ⟨[]⟩
    sampleGenesis.body.lastBlockConsensus with
  | .ok block => block
  | .error _ => sampleGenesis

/-- The block that one half hears of. -/
def splitBlock : Bool → Block
  | true => blockAt 1
  | false => blockAt 2

/-- The proposer of the round is not honest, and proposes two blocks. -/
def splitProposal (first : Bool) : List Event :=
  match ConsensusMessage.signProposal .transparent ⟨2, 1, 0, splitBlock first⟩ splitGenesis
    (splitKey 25) with
  | .ok msg => [.newConsensusMessage (.proposal msg)]
  | .error _ => []

def splitVote (type : VoteType) (first : Bool) (n : Nat) : Result (VoteMessage type) :=
  ConsensusMessage.signVote .transparent type ⟨2, 1, (splitBlock first).hash .transparent⟩
    splitGenesis (splitKey n)

/-- Those whose votes one half hears of: its own, and all that are not honest. -/
def splitMembers : Bool → List Nat
  | true => List.range 11 ++ List.range' 22 15
  | false => List.range' 11 11 ++ List.range' 22 15

def splitVotes (type : VoteType) : Bool → List (VoteMessage type)
  | true => (splitMembers true).filterMap fun n => (splitVote type true n).toOption
  | false => (splitMembers false).filterMap fun n => (splitVote type false n).toOption

def splitVoteEvents (type : VoteType) (first : Bool) : List Event :=
  (splitVotes type first).map fun msg => .newConsensusMessage (voteMessage msg)

/-- A node enters the height, hears of a proposal and prevotes. -/
def splitEntering (first : Bool) : List Event :=
  [.setNewHeight 2 Hash.zero splitValidatorSet Hash.zero Hash.zero, .acquire sampleWorld,
    .start] ++ splitProposal first ++
    [.loop, .acquire sampleWorld, .loop, .acquire sampleWorld, .resume .done, .loop]

/-- A node gets the prevotes and precommits. -/
def splitPrecommitting (first : Bool) : List Event :=
  splitVoteEvents .prevote first ++ List.replicate 3 (.acquire sampleWorld) ++ [.resume .done, .loop]

/-- A node gets the precommits and commits. -/
def splitCommitting (first : Bool) : List Event :=
  splitVoteEvents .precommit first ++ List.replicate 54 (.acquire sampleWorld)

def splitPrevoted (i : Fin 22) : Engine :=
  (Engine.new .transparent splitValidatorSet).run .transparent (splitNodes.config i)
    (splitEntering (isFirst i))

def splitPrecommitted (i : Fin 22) : Engine :=
  (splitPrevoted i).run .transparent (splitNodes.config i) (splitPrecommitting (isFirst i))

/-- One node of each half gets that far. -/
def splitAfter (i : Fin 22) : Engine :=
  if i ∈ [0, 11] then
    (splitPrecommitted i).run .transparent (splitNodes.config i) (splitCommitting (isFirst i))
  else splitPrecommitted i

/-- The node has sent its vote. -/
def SentVote (type : VoteType) (engine : Engine) (i : Fin 22) : Prop :=
  ∀ msg ∈ (splitVote type (isFirst i) i).toOption, .gossip (voteMessage msg) ∈ engine.trace

instance (type : VoteType) (engine : Engine) (i : Fin 22) : Decidable (SentVote type engine i) :=
  inferInstanceAs (Decidable (∀ msg ∈ _, _))

/-- The node has committed the block of its half. -/
def commitsSplitBlock (i : Fin 22) : Bool :=
  (splitAfter i).trace.any fun
    | .commitBlock height block _ =>
        height = 2 ∧ block.hash .transparent = (splitBlock (isFirst i)).hash .transparent
    | .gossip _ | .newHeight _ _ => false

/-- The node sends both votes and enters the height once. -/
def splitVoted (i : Fin 22) : Bool :=
  SentVote .prevote (splitPrevoted i) i ∧ SentVote .precommit (splitPrecommitted i) i ∧
    entered 2 (splitAfter i).trace = [splitValidatorSet]

-- a few nodes at a time, which keeps the evaluations small
theorem splitVoted_first {i : Fin 22} (hi : i.val < 11) : splitVoted i := by
  have hfirst : ∀ j : Fin 22, j.val < 3 → splitVoted j := by decide +kernel
  have hsecond : ∀ j : Fin 22, 3 ≤ j.val → j.val < 6 → splitVoted j := by decide +kernel
  have hthird : ∀ j : Fin 22, 6 ≤ j.val → j.val < 9 → splitVoted j := by decide +kernel
  have hfourth : ∀ j : Fin 22, 9 ≤ j.val → j.val < 11 → splitVoted j := by decide +kernel
  rcases show i.val < 3 ∨ 3 ≤ i.val ∧ i.val < 6 ∨ 6 ≤ i.val ∧ i.val < 9 ∨ 9 ≤ i.val by omega with
    h | h | h | h
  · exact hfirst i h
  · exact hsecond i h.1 h.2
  · exact hthird i h.1 h.2
  · exact hfourth i h hi

theorem splitVoted_second {i : Fin 22} (hi : 11 ≤ i.val) : splitVoted i := by
  have hfirst : ∀ j : Fin 22, 11 ≤ j.val → j.val < 14 → splitVoted j := by decide +kernel
  have hsecond : ∀ j : Fin 22, 14 ≤ j.val → j.val < 17 → splitVoted j := by decide +kernel
  have hthird : ∀ j : Fin 22, 17 ≤ j.val → j.val < 20 → splitVoted j := by decide +kernel
  have hfourth : ∀ j : Fin 22, 20 ≤ j.val → splitVoted j := by decide +kernel
  rcases show i.val < 14 ∨ 14 ≤ i.val ∧ i.val < 17 ∨ 17 ≤ i.val ∧ i.val < 20 ∨ 20 ≤ i.val by omega
    with h | h | h | h
  · exact hfirst i hi h
  · exact hsecond i h.1 h.2
  · exact hthird i h.1 h.2
  · exact hfourth i h

theorem evaluated_split :
    (∀ i, SentVote .prevote (splitPrevoted i) i ∧ SentVote .precommit (splitPrecommitted i) i ∧
      entered 2 (splitAfter i).trace = [splitValidatorSet]) ∧
    commitsSplitBlock 0 ∧ commitsSplitBlock 11 ∧
    (splitBlock true).hash .transparent ≠ (splitBlock false).hash .transparent := by
  refine ⟨?_, by decide +kernel, by decide +kernel, by decide +kernel⟩
  intro i
  rcases Nat.lt_or_ge i.val 11 with hi | hi
  · exact of_decide_eq_true (splitVoted_first hi)
  · exact of_decide_eq_true (splitVoted_second hi)

/-- No two validators share an address. -/
theorem splitKey_inj {first : Bool} {n : Nat} (hn : n ∈ splitMembers first) {j : Fin 22}
    (h : (splitKey n).address .transparent = (splitKey j).address .transparent) :
    n = j ∧ isFirst j = first := by
  have hdistinct : ∀ first, ∀ n ∈ splitMembers first, ∀ j : Fin 22,
      (splitKey n).address .transparent = (splitKey j).address .transparent →
        n = j ∧ isFirst j = first := by decide +kernel
  exact hdistinct first n hn j h

theorem mem_splitAddress {a : Address} {i : Fin 22} (ha : a ∈ splitNodes.address .transparent i) :
    a = (splitKey i).address .transparent := (Option.some.inj ha).symm

/-- The votes that one half hears of are no forgeries, once the honest ones have been sent. -/
theorem unforged_splitVoteEvents {type : VoteType} {first : Bool} {engines : Fin 22 → Engine}
    (hsent : ∀ i, SentVote type (engines i) i) {msg : ConsensusMessage} {event : Event}
    (hevent : event ∈ splitVoteEvents type first) (hmsg : event.message = some msg) :
    splitNodes.Unforged .transparent 2 splitValidatorSet engines msg := by
  rcases List.mem_map.mp hevent with ⟨vote, hvote, rfl⟩
  obtain rfl : voteMessage vote = msg := Option.some.inj hmsg
  have hsigned : ∃ n ∈ splitMembers first, (splitVote type first n).toOption = some vote := by
    cases first with
    | true => exact List.mem_filterMap.mp hvote
    | false => exact List.mem_filterMap.mp hvote
  rcases hsigned with ⟨n, hn, hsigned⟩
  have hok : splitVote type first n = .ok vote := by
    cases hvote : splitVote type first n with
    | ok msg =>
        rw [hvote] at hsigned
        rw [Option.some.inj hsigned]
    | error e =>
        rw [hvote] at hsigned
        cases hsigned
  refine unforged_of_mem ?_
  intro j a ha hsigner
  have haddress : (.ok ((splitKey n).address .transparent) : Result Address) = .ok a := by
    rw [← (ConsensusMessage.signVote_eq_ok hok).2, ← hsigner]
    cases type with
    | prevote => rfl
    | precommit => rfl
  rw [mem_splitAddress ha] at haddress
  rcases splitKey_inj hn (Except.ok.inj haddress) with ⟨rfl, rfl⟩
  exact hsent j vote (Option.mem_def.mpr hsigned)

theorem proposal_of_mem_splitEntering {first : Bool} {event : Event} {msg : ConsensusMessage}
    (hmem : event ∈ splitEntering first) (hmsg : event.message = some msg) :
    ∃ proposal, msg = .proposal proposal := by
  simp only [splitEntering, List.mem_append, List.mem_cons, List.not_mem_nil, or_false] at hmem
  rcases hmem with ((rfl | rfl | rfl) | hproposal) | rfl | rfl | rfl | rfl | rfl | rfl
  · cases hmsg
  · cases hmsg
  · cases hmsg
  · unfold splitProposal at hproposal
    split at hproposal
    · obtain rfl := List.mem_singleton.mp hproposal
      exact ⟨_, (Option.some.inj hmsg).symm⟩
    · cases hproposal
  all_goals cases hmsg

theorem reachable_splitAfter :
    splitNodes.Reachable .transparent 2 splitValidatorSet splitAfter := by
  have hnew : splitNodes.Reachable .transparent 2 splitValidatorSet
      fun _ => Engine.new .transparent splitValidatorSet := .new fun _ => splitValidatorSet
  have hprevoted := hnew.runEach (fun i => splitEntering (isFirst i)) ?_ (List.nodup_finRange 22)
  · simp only [List.mem_finRange, if_true] at hprevoted
    -- the votes of the honest nodes were all sent before any of them arrives
    have hprecommitted := hprevoted.runEach (fun i => splitPrecommitting (isFirst i)) ?_
      (List.nodup_finRange 22)
    · simp only [List.mem_finRange, if_true] at hprecommitted
      refine hprecommitted.runEach (fun i => splitCommitting (isFirst i)) ?_
        (show ([0, 11] : List (Fin 22)).Nodup by decide)
      intro i event hmem msg hmsg
      rcases List.mem_append.mp hmem with hvote | hrest
      · exact unforged_splitVoteEvents (fun i => (evaluated_split.1 i).2.1) hvote hmsg
      · rw [List.eq_of_mem_replicate hrest] at hmsg
        cases hmsg
    · intro i event hmem msg hmsg
      rcases List.mem_append.mp hmem with hmem | hrest
      · rcases List.mem_append.mp hmem with hvote | hrest
        · exact unforged_splitVoteEvents (fun i => (evaluated_split.1 i).1) hvote hmsg
        · rw [List.eq_of_mem_replicate hrest] at hmsg
          cases hmsg
      · simp only [List.mem_cons, List.not_mem_nil, or_false] at hrest
        rcases hrest with rfl | rfl
        · cases hmsg
        · cases hmsg
  · intro i event hmem msg hmsg type vote hvote
    -- up to here there is no message but a proposal
    rcases proposal_of_mem_splitEntering hmem hmsg with ⟨proposal, rfl⟩
    cases type with
    | prevote => cases hvote
    | precommit => cases hvote

/-- Where rounding makes majorities, two honest nodes commit different blocks, although all that is
assumed of the nodes holds. -/
theorem disagreement_splitAfter :
    splitNodes.Reachable .transparent 2 splitValidatorSet splitAfter ∧
      (splitValidatorSet.validators.map Validator.address).Nodup ∧
      (∀ v ∈ splitValidatorSet.validators, 0 < v.power ∧ v.power < 2 ^ 48) ∧
      (∀ i j a, a ∈ splitNodes.address .transparent i → a ∈ splitNodes.address .transparent j →
        i = j) ∧
      (∀ members : Finset Address,
        (∀ a ∈ members, ∀ i, a ∉ splitNodes.address .transparent i) →
          (∑ a ∈ members, splitValidatorSet.weight a) * 3 ≤ splitValidatorSet.totalPower) ∧
      splitValidatorSet.totalPower ≤ splitValidatorSet.powerSum ∧
      (∀ i, EntersOnce 2 splitValidatorSet (splitAfter i).trace) ∧
      ∃ (block block' : Block) (consensus consensus' : Consensus),
        .commitBlock 2 block consensus ∈ (splitAfter 0).trace ∧
          .commitBlock 2 block' consensus' ∈ (splitAfter 11).trace ∧
          block.hash .transparent ≠ Hash.zero ∧ block'.hash .transparent ≠ Hash.zero ∧
          block.hash .transparent ≠ block'.hash .transparent := by
  have hcommitted : ∀ i, commitsSplitBlock i → ∃ block consensus,
      .commitBlock 2 block consensus ∈ (splitAfter i).trace ∧
        block.hash .transparent = (splitBlock (isFirst i)).hash .transparent := by
    intro i hcommits
    rcases List.any_eq_true.mp hcommits with ⟨effect, hmem, hcommit⟩
    cases effect with
    | gossip msg => cases hcommit
    | commitBlock height block consensus =>
        rcases of_decide_eq_true hcommit with ⟨rfl, hhash⟩
        exact ⟨block, consensus, hmem, hhash⟩
    | newHeight height validatorSet => cases hcommit
  rcases hcommitted 0 evaluated_split.2.1 with ⟨block, consensus, hcommit, hblock⟩
  rcases hcommitted 11 evaluated_split.2.2.1 with ⟨block', consensus', hcommit', hblock'⟩
  refine ⟨reachable_splitAfter, by decide +kernel, by decide +kernel, ?_, ?_, by decide +kernel, ?_,
    block, block', consensus, consensus', hcommit, hcommit',
    Crypto.transparent_fromData_ne_zero _, Crypto.transparent_fromData_ne_zero _, ?_⟩
  · intro i j a hi hj
    rw [mem_splitAddress hi] at hj
    have hdistinct : ∀ i j : Fin 22, (splitKey i).address .transparent =
        (splitKey j).address .transparent → i = j := by decide +kernel
    exact hdistinct i j (mem_splitAddress hj)
  · intro members hmembers
    -- the honest validators hold the rest of the power
    let honest := (List.range 22).map fun n => (splitKey n).address .transparent
    have hnodup : honest.Nodup := by decide +kernel
    have hhonest : ∑ a ∈ honest.toFinset, splitValidatorSet.weight a = 2 * 3002399751580333 := by
      rw [List.sum_toFinset _ hnodup]
      decide +kernel
    have hdisjoint : Disjoint members honest.toFinset := by
      refine Finset.disjoint_left.mpr ?_
      intro a ha hmem
      rcases List.mem_map.mp (List.mem_toFinset.mp hmem) with ⟨n, hn, rfl⟩
      exact hmembers _ ha ⟨n, List.mem_range.mp hn⟩ rfl
    have hle := splitValidatorSet.sum_weight_le (members ∪ honest.toFinset)
    rw [Finset.sum_union hdisjoint, hhonest] at hle
    have hsum : splitValidatorSet.powerSum = 2 ^ 53 + 4 := by decide +kernel
    have htotal : splitValidatorSet.totalPower = 2 ^ 53 := by decide +kernel
    omega
  · intro i
    rw [EntersOnce, (evaluated_split.1 i).2.2]
  · rw [hblock, hblock']
    exact evaluated_split.2.2.2

end Rounded

end Nodes

end ChainCore
end UniqysKit
