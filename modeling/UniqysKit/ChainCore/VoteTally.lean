import UniqysKit.ChainCore.VoteCount

/-!
# Exact tallies

`VoteSet.add` keeps running sums and sets its three flags when a sum passes a bound, once and for
all.  `VoteSet.Tallied` ties the sums and flags to the messages that are recorded; every successful
`add` keeps it.  While all powers together are less than `2 ^ 52`, sums and bounds are not rounded,
and the flags say at each moment what the recorded voters hold; from there on they need not.

A call of `add` that throws is another matter: the message of a stranger stays recorded.
-/

namespace UniqysKit
namespace ChainCore

open Library

namespace VoteSet

variable {type : VoteType}

/-! ## What the voters hold -/

/-- The voters whose message is recorded. -/
def voters (set : VoteSet type) : Finset Address := (set.messageOfValidator.map Prod.fst).toFinset

/-- The voters for a block whose message is recorded. -/
def votersFor (set : VoteSet type) (blockHash : Hash) : Finset Address :=
  ((set.messageOfValidator.filter fun entry => entry.2.vote.blockHash = blockHash).map
    Prod.fst).toFinset

/-- More than two thirds of the powers are behind the block. -/
def HasMajority (set : VoteSet type) (blockHash : Hash) : Prop :=
  set.validatorSet.powerSum * 2 <
    (∑ a ∈ set.votersFor blockHash, set.validatorSet.weight a) * 3

instance (set : VoteSet type) (blockHash : Hash) : Decidable (set.HasMajority blockHash) :=
  inferInstanceAs (Decidable (_ < _))

/-- The flags say what the recorded voters hold. -/
structure Exact (set : VoteSet type) : Prop where
  majority_iff : set.twoThirdsMajority.isSome ↔ ∃ blockHash, set.HasMajority blockHash
  majority_hash : ∀ vote, set.twoThirdsMajority = some vote → set.HasMajority vote.blockHash
  majority_unique : ∀ {blockHash blockHash'}, set.HasMajority blockHash →
    set.HasMajority blockHash' → blockHash = blockHash'
  twoThirdsAny_iff : set.twoThirdsAny = true ↔
    set.validatorSet.powerSum * 2 < (∑ a ∈ set.voters, set.validatorSet.weight a) * 3
  oneThirdAny_iff : set.oneThirdAny = true ↔
    set.validatorSet.powerSum < (∑ a ∈ set.voters, set.validatorSet.weight a) * 3

/-- Calls of `add` one after another. A throw ends the sequence. -/
def addAll : List (Address × VoteMessage type) → Action (VoteSet type) Unit
  | [] => pure ()
  | (address, message) :: votes => do
      add address message
      addAll votes

/-! ## The invariant -/

/-- The sums are those of the recorded messages, and the flags are those of the sums. -/
structure Tallied (vs : ValidatorSet) (set : VoteSet type) : Prop where
  validatorSet : set.validatorSet = vs
  nodup : (set.messageOfValidator.map Prod.fst).Nodup
  power : set.power = Doubles.sum (set.messageOfValidator.map fun entry => vs.weight entry.1)
  powerOfBlock : ∀ blockHash, set.powerOfBlock blockHash =
    Doubles.sum ((set.messageOfValidator.filter fun entry => entry.2.vote.blockHash = blockHash).map
      fun entry => vs.weight entry.1)
  majority : ∀ vote, set.twoThirdsMajority = some vote →
    vs.Passes (set.powerOfBlock vote.blockHash)
  no_majority : set.twoThirdsMajority = none → ∀ blockHash, ¬ vs.Passes (set.powerOfBlock blockHash)
  twoThirdsAny : set.twoThirdsAny = true ↔ vs.Passes set.power
  oneThirdAny : set.oneThirdAny = true ↔ Doubles.mul set.power 3 > vs.totalPower

variable {vs : ValidatorSet} {set : VoteSet type}

theorem tallied_new (type : VoteType) (vs : ValidatorSet) : (new vs : VoteSet type).Tallied vs := by
  refine ⟨rfl, List.nodup_nil, rfl, fun _ => rfl, ?_, ?_, ?_, ?_⟩
  · intro vote h
    cases h
  · intro _ blockHash
    exact Doubles.not_lt_zero_mul _ 3
  · exact iff_of_false nofun (Doubles.not_lt_zero_mul _ 3)
  · exact iff_of_false nofun (Doubles.not_lt_zero_mul _ 3)

theorem add_of_has {address : Address} (msg : VoteMessage type) (hhas : set.has address = true) :
    add address msg set = .error ⟨"duplicated vote message"⟩ set := by
  rw [add, Fallible.get_bind, if_pos hhas]
  rfl

/-- What a call of `add` that goes through has done. -/
theorem add_eq_ok {set' : VoteSet type} {address : Address} {msg : VoteMessage type}
    (h : add address msg set = .ok () set') :
    ¬ set.has address = true ∧ 0 < set.validatorSet.weight address ∧
      set' = (set.record address msg).count (set.validatorSet.weight address) msg.vote := by
  by_cases hhas : set.has address = true
  · rw [add_of_has msg hhas] at h
    cases h
  · rw [add_eq msg hhas] at h
    cases hpower : set.validatorSet.powerOf address with
    | error e =>
        rw [hpower] at h
        cases h
    | ok votePower =>
        rw [hpower] at h
        cases h
        rw [ValidatorSet.weight_of_powerOf hpower]
        exact ⟨hhas, (ValidatorSet.powerOf_eq_ok_iff.mp hpower).2, rfl⟩

/-- A flag that stays set once the sum has passed the bound is right, as the sum only goes up. -/
theorem latched_iff {flag : Bool} {passed passed' : Prop} [Decidable passed']
    (h : flag = true ↔ passed) (hmono : passed → passed') :
    (flag || decide passed') = true ↔ passed' := by
  rw [Bool.or_eq_true, decide_eq_true_eq, h]
  exact or_iff_right_of_imp hmono

section Add

variable {address : Address} {msg : VoteMessage type}

/-- A vote that is counted keeps the tally. -/
theorem Tallied.count (h : set.Tallied vs) (hhas : ¬ set.has address = true) :
    ((set.record address msg).count (vs.weight address) msg.vote).Tallied vs := by
  have hvs : (set.record address msg).validatorSet = vs := h.validatorSet
  -- no sum goes down
  have hall : set.power ≤ Doubles.add set.power (vs.weight address) := by
    rw [h.power]
    exact Doubles.sum_le_add _ _
  have hmore : ∀ blockHash, set.powerOfBlock blockHash ≤
      Doubles.add (set.powerOfBlock blockHash) (vs.weight address) := by
    intro blockHash
    rw [h.powerOfBlock]
    exact Doubles.sum_le_add _ _
  refine ⟨h.validatorSet, ?_, ?_, ?_, ?_, ?_, ?_, ?_⟩
  · exact nodup_record h.nodup hhas
  · change Doubles.add set.power (vs.weight address) =
      Doubles.sum ((set.messageOfValidator ++ [(address, msg)]).map _)
    rw [List.map_append, List.map_singleton, Doubles.sum_concat, ← h.power]
  · intro blockHash
    rw [powerOfBlock_count, h.powerOfBlock]
    exact (sum_record blockHash).symm
  · -- the flag is set by this vote, or it was set before and the sum of its block has not gone down
    intro vote hvote
    rw [powerOfBlock_count]
    simp only [VoteSet.count] at hvote
    split at hvote
    · rename_i hmajority
      cases hvote
      rw [hvs] at hmajority
      rw [if_pos rfl]
      exact hmajority.2
    · have hold := h.majority vote hvote
      split
      · exact hold.mono (hmore vote.blockHash)
      · exact hold
  · intro hnone blockHash
    rw [powerOfBlock_count]
    simp only [VoteSet.count, hvs] at hnone
    split at hnone
    · cases hnone
    · rename_i hmajority
      have hold := h.no_majority hnone blockHash
      by_cases heq : msg.vote.blockHash = blockHash
      · subst heq
        -- the block of the vote was looked at, and it has no majority yet
        rw [if_pos rfl]
        exact not_and.mp hmajority hnone
      · rw [if_neg heq]
        exact hold
  · change (set.twoThirdsAny || decide _) = true ↔ _
    rw [hvs]
    exact latched_iff h.twoThirdsAny fun hold => hold.mono hall
  · change (set.oneThirdAny || decide _) = true ↔ _
    rw [hvs]
    refine latched_iff h.oneThirdAny fun hold => lt_of_lt_of_le hold ?_
    exact Doubles.round_mono (Nat.mul_le_mul_right 3 hall)

theorem Tallied.add {set' : VoteSet type} (h : set.Tallied vs)
    (hadd : VoteSet.add address msg set = .ok () set') : set'.Tallied vs := by
  rcases add_eq_ok hadd with ⟨hhas, -, rfl⟩
  rw [h.validatorSet]
  exact h.count hhas

/-- A majority that was found stays what it is. -/
theorem majority_add {set' : VoteSet type} (hadd : VoteSet.add address msg set = .ok () set')
    {vote : Vote} (hvote : set.twoThirdsMajority = some vote) :
    set'.twoThirdsMajority = some vote := by
  rcases add_eq_ok hadd with ⟨-, -, rfl⟩
  have hsome : ¬ (set.record address msg).twoThirdsMajority = none := by
    rw [record, hvote]
    exact Option.some_ne_none vote
  simp only [VoteSet.count, hsome, false_and, if_false]
  exact hvote

end Add

/-! ## Runs -/

theorem addAll_cons {address : Address} {msg : VoteMessage type}
    {votes : List (Address × VoteMessage type)} {set' : VoteSet type}
    (h : addAll ((address, msg) :: votes) set = .ok () set') :
    ∃ mid, add address msg set = .ok () mid ∧ addAll votes mid = .ok () set' := by
  rw [addAll] at h
  rcases Fallible.bind_cases (add address msg) (fun _ => addAll votes) set with
    ⟨a, mid, hfirst, hrest⟩ | ⟨e, mid, -, hrest⟩
  · exact ⟨mid, hfirst, hrest.symm.trans h⟩
  · rw [hrest] at h
    cases h

/-- What each of the calls keeps, all of them keep. -/
theorem addAll_induction {P : VoteSet type → Prop} {votes : List (Address × VoteMessage type)}
    {set' : VoteSet type} (h : addAll votes set = .ok () set') (hset : P set)
    (hstep : ∀ {set set' address msg}, P set → add address msg set = .ok () set' → P set') :
    P set' := by
  induction votes generalizing set with
  | nil =>
      cases h
      exact hset
  | cons entry votes ih =>
      rcases addAll_cons h with ⟨mid, hfirst, hrest⟩
      exact ih hrest (hstep hset hfirst)

theorem addAll_append (earlier later : List (Address × VoteMessage type)) :
    addAll (earlier ++ later) = (do
      addAll earlier
      addAll later : Action (VoteSet type) Unit) := by
  induction earlier with
  | nil => simp [addAll]
  | cons entry earlier ih => simp [addAll, ih]

/-- The flags of a tallied set are exact. -/
theorem Tallied.exact (h : set.Tallied vs) (hsum : vs.powerSum < 2 ^ 52) : set.Exact := by
  -- no validator is counted twice, so the sums over the messages are sums over the voters
  have hpower : set.power = ∑ a ∈ set.voters, vs.weight a := by
    rw [voters, ← ValidatorSet.doublesSum_eq (by omega) h.nodup, List.map_map, h.power]
    rfl
  have hblock : ∀ blockHash,
      set.powerOfBlock blockHash = ∑ a ∈ set.votersFor blockHash, vs.weight a := by
    intro blockHash
    have hnodup := h.nodup.sublist ((List.filter_sublist (p := fun entry =>
      entry.2.vote.blockHash = blockHash)).map Prod.fst)
    rw [votersFor, ← ValidatorSet.doublesSum_eq (by omega) hnodup, List.map_map, h.powerOfBlock]
    rfl
  have hmajority : ∀ blockHash, set.HasMajority blockHash ↔
      vs.Passes (set.powerOfBlock blockHash) := by
    intro blockHash
    rw [HasMajority, ValidatorSet.passes_iff hsum, hblock, h.validatorSet]
  refine ⟨?_, ?_, ?_, ?_, ?_⟩
  · constructor
    · intro hsome
      rcases Option.isSome_iff_exists.mp hsome with ⟨vote, hvote⟩
      exact ⟨vote.blockHash, (hmajority _).mpr (h.majority vote hvote)⟩
    · -- a flag that is not set bounds every block
      rintro ⟨blockHash, hheld⟩
      by_contra hnone
      rw [Bool.not_eq_true, Option.isSome_eq_false_iff, Option.isNone_iff_eq_none] at hnone
      exact h.no_majority hnone blockHash ((hmajority _).mp hheld)
  · intro vote hvote
    exact (hmajority _).mpr (h.majority vote hvote)
  · -- two blocks with a majority would need more than the total power between them
    intro blockHash blockHash' hheld hheld'
    by_contra hne
    have hdisjoint : Disjoint (set.votersFor blockHash) (set.votersFor blockHash') := by
      rw [Finset.disjoint_left]
      intro a ha ha'
      rcases List.mem_map.mp (List.mem_toFinset.mp ha) with ⟨entry, hentry, rfl⟩
      rcases List.mem_map.mp (List.mem_toFinset.mp ha') with ⟨entry', hentry', hsame⟩
      rcases List.mem_filter.mp hentry with ⟨hmem, hhash⟩
      rcases List.mem_filter.mp hentry' with ⟨hmem', hhash'⟩
      rcases List.inj_on_of_nodup_map h.nodup hmem' hmem hsame with rfl
      exact hne ((of_decide_eq_true hhash).symm.trans (of_decide_eq_true hhash'))
    have hle := vs.sum_weight_le (set.votersFor blockHash ∪ set.votersFor blockHash')
    rw [Finset.sum_union hdisjoint] at hle
    rw [HasMajority, h.validatorSet] at hheld hheld'
    omega
  · rw [h.twoThirdsAny, ValidatorSet.passes_iff hsum, hpower, h.validatorSet]
  · rw [h.oneThirdAny, ValidatorSet.oneThird_iff hsum, hpower, h.validatorSet]

theorem messageOfValidator_addAll {votes : List (Address × VoteMessage type)}
    {set' : VoteSet type} (h : addAll votes set = .ok () set') :
    set'.messageOfValidator = set.messageOfValidator ++ votes := by
  induction votes generalizing set with
  | nil =>
      cases h
      exact (List.append_nil _).symm
  | cons entry votes ih =>
      rcases addAll_cons h with ⟨mid, hfirst, hrest⟩
      rcases add_eq_ok hfirst with ⟨-, -, rfl⟩
      rw [ih hrest]
      exact List.append_assoc _ [entry] votes

/-- After any sequence of successful calls on a fresh set, each voter is recorded with its vote, the
flags are exact, and a majority that was found on the way is still the same. The addresses need not
be distinct, nor the powers positive. -/
theorem tallies_exact {vs : ValidatorSet} (hsum : vs.powerSum < 2 ^ 52)
    {votes : List (Address × VoteMessage type)} {set : VoteSet type}
    (h : addAll votes (new vs) = .ok () set) :
    set.validatorSet = vs ∧ set.messageOfValidator = votes ∧ set.Exact ∧
      ∀ earlier later mid, votes = earlier ++ later → addAll earlier (new vs) = .ok () mid →
        ∀ vote, mid.twoThirdsMajority = some vote → set.twoThirdsMajority = some vote := by
  have htallied : set.Tallied vs :=
    addAll_induction h (tallied_new type vs) fun hset hadd => hset.add hadd
  refine ⟨htallied.validatorSet, messageOfValidator_addAll h, htallied.exact hsum, ?_⟩
  rintro earlier later mid rfl hearlier vote hvote
  -- the later calls start from the set that the earlier ones have left
  have hlater : addAll later mid = .ok () set := by
    rw [addAll_append, Fallible.bind_ok hearlier] at h
    exact h
  exact addAll_induction (P := fun set => set.twoThirdsMajority = some vote) hlater hvote
    fun hset hadd => majority_add hadd hset

theorem length_sampleVoter (n : UInt8) : (List.replicate 20 n).length = 20 := List.length_replicate

/-- The address whose bytes all are `n`. -/
def sampleVoter (n : UInt8) : Address := ⟨List.replicate 20 n, length_sampleVoter n⟩

theorem length_sampleBlock (n : UInt8) : (List.replicate 32 n).length = 32 := List.length_replicate

/-- A precommit for the block whose hash has all bytes `n`. -/
def samplePrecommit (n : UInt8) : PrecommitMessage where
  vote := ⟨1, 1, ⟨List.replicate 32 n, length_sampleBlock n⟩⟩
  sign := (Consensus.sampleKey n).sign .transparent Hash.zero

def sampleElectors : ValidatorSet := ⟨[⟨sampleVoter 1, 4⟩, ⟨sampleVoter 2, 2⟩, ⟨sampleVoter 3, 1⟩]⟩

/-- A vote for another block, then two that make a majority. -/
def sampleVotes : List (Address × PrecommitMessage) :=
  [(sampleVoter 3, samplePrecommit 8), (sampleVoter 1, samplePrecommit 9),
    (sampleVoter 2, samplePrecommit 9)]

theorem tallies_exact_sample :
    ∃ set, addAll sampleVotes (new sampleElectors) = .ok () set ∧
      set.validatorSet = sampleElectors ∧ set.messageOfValidator = sampleVotes ∧ set.Exact ∧
      ∀ earlier later mid, sampleVotes = earlier ++ later →
        addAll earlier (new sampleElectors) = .ok () mid →
        ∀ vote, mid.twoThirdsMajority = some vote → set.twoThirdsMajority = some vote :=
  ⟨Fallible.final (addAll sampleVotes (new sampleElectors)), rfl,
    tallies_exact (by decide) rfl⟩

/-- Seventeen validators with `2 ^ 52` of power, of which the first eleven have a third more than
`2 ^ 53 / 3`. -/
def roundedElectors : ValidatorSet where
  validators := (List.range 17).map fun n =>
    ⟨sampleVoter (UInt8.ofNat n),
      if n = 10 then 187649984473781 else if n = 16 then 93824992236890 else 2 ^ 48 - 1⟩

/-- The eleven vote for one block. -/
def roundedVotes : List (Address × PrecommitMessage) :=
  (List.range 11).map fun n => (sampleVoter (UInt8.ofNat n), samplePrecommit 9)

def roundedSet : VoteSet .precommit := Fallible.final (addAll roundedVotes (new roundedElectors))

/-- Three times their power is one more than twice the total, and rounded the same: there is no
majority for the code. -/
theorem not_tallies_exact :
    ¬ ∀ (vs : ValidatorSet) (votes : List (Address × PrecommitMessage)) (set : VoteSet .precommit),
      (vs.validators.map Validator.address).Nodup →
      (∀ v ∈ vs.validators, 0 < v.power ∧ v.power < 2 ^ 48) →
      addAll votes (new vs) = .ok () set → set.Exact := by
  intro h
  have hexact := h roundedElectors roundedVotes roundedSet (by decide +kernel) (by decide +kernel) rfl
  have hnone : roundedSet.twoThirdsMajority = none := by decide +kernel
  have hheld : roundedSet.HasMajority (samplePrecommit 9).vote.blockHash := by decide +kernel
  have hsome := hexact.majority_iff.mpr ⟨_, hheld⟩
  rw [hnone] at hsome
  cases hsome

/-! ## Rejected votes -/

/-- `messages`. -/
def messages (set : VoteSet type) : List (VoteMessage type) := set.messageOfValidator.map Prod.snd

/-- The two sets answer every question in the same way. -/
structure SameAnswers (set set' : VoteSet type) : Prop where
  has : ∀ address, set'.has address = set.has address
  messages : set'.messages = set.messages
  signatures : ∀ blockHash, set'.signatures blockHash = set.signatures blockHash
  twoThirdsMajority : set'.twoThirdsMajority = set.twoThirdsMajority
  twoThirdsAny : set'.twoThirdsAny = set.twoThirdsAny
  oneThirdAny : set'.oneThirdAny = set.oneThirdAny

/-- Where the call throws, the set is as it was before. -/
def LeavesNoTrace (set : VoteSet type) (address : Address) (message : VoteMessage type) : Prop :=
  ∀ e set', add address message set = .error e set' → set.SameAnswers set'

/-- The message of a stranger stays recorded. -/
theorem not_leavesNoTrace_of_error {address : Address} (message : VoteMessage type) {e : Error}
    (hhas : ¬ set.has address = true) (hpower : set.validatorSet.powerOf address = .error e) :
    ¬ set.LeavesNoTrace address message := by
  intro h
  have hadd := add_eq message hhas
  rw [hpower] at hadd
  -- the message went into the table before `powerOf` threw
  have hrecorded := (h e _ hadd).has address
  have hhas' : (set.record address message).has address = true :=
    has_iff.mpr ⟨message, List.mem_append_right _ (List.mem_singleton_self _)⟩
  exact hhas (hrecorded.symm.trans hhas')

/-- A call that throws leaves no trace unless it is for an address without power, whose message is
not recorded yet. -/
theorem leavesNoTrace_iff (set : VoteSet type) (address : Address) (message : VoteMessage type) :
    set.LeavesNoTrace address message ↔
      set.has address = true ∨ ∃ power, set.validatorSet.powerOf address = .ok power := by
  by_cases hhas : set.has address = true
  · -- a duplicate throws before anything is changed
    refine iff_of_true ?_ (.inl hhas)
    intro e set' h
    rw [add_of_has message hhas] at h
    cases h
    exact ⟨fun _ => rfl, rfl, fun _ => rfl, rfl, rfl, rfl⟩
  · cases hpower : set.validatorSet.powerOf address with
    | ok power =>
        refine iff_of_true ?_ (.inr ⟨power, rfl⟩)
        intro e set' h
        rw [add_eq message hhas, hpower] at h
        cases h
    | error e =>
        refine iff_of_false (not_leavesNoTrace_of_error message hhas hpower) ?_
        rintro (h | ⟨power, h⟩)
        · exact hhas h
        · cases h

/-- The vote of a stranger is rejected and stays in the set. -/
theorem not_leavesNoTrace :
    ¬ ∀ (set : VoteSet .precommit) address message, set.LeavesNoTrace address message := by
  intro h
  have hstranger : sampleElectors.powerOf (sampleVoter 4) =
      .error ⟨"not included in the validator set"⟩ := rfl
  have hnot : ¬ (new sampleElectors : VoteSet .precommit).LeavesNoTrace (sampleVoter 4)
      (samplePrecommit 9) := not_leavesNoTrace_of_error _ nofun hstranger
  exact hnot (h _ _ _)

end VoteSet

end ChainCore
end UniqysKit
